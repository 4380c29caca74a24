import StoryBuild.Proofs.Families
import StoryBuild.Proofs.Owners
import StoryBuild.Proofs.Staleness

namespace StoryBuild.FileGraph

variable {g new : FileGraph} {next : SourceFile → List Path} {visited stack : List Path}
  {f k : SourceFile} {m p q : Path}

/-- More steps than a walk takes change nothing. -/
theorem walk_enough {steps more : Nat} (room : g.load next visited stack ≤ steps)
    (room' : g.load next visited stack ≤ more) :
    g.walk next steps visited stack = g.walk next more visited stack := by
  induction steps generalizing more visited stack with
  | zero =>
    have empty_ : stack = [] := List.length_eq_zero_iff.mp (by unfold load at room; omega)
    rw [empty_]
    cases more <;> rfl
  | succ steps ih =>
    cases stack with
    | nil => cases more <;> rfl
    | cons top stack =>
      have shorter : g.load next visited (top :: stack) = g.load next visited stack + 1 := by
        simp only [load, List.length_cons]
        omega
      obtain ⟨more, rfl⟩ : ∃ n, more = n + 1 := ⟨more - 1, by omega⟩
      unfold walk
      split
      next => exact ih (by omega) (by omega)
      next fresh =>
        have visit : g.load next (top :: visited) stack ≤ g.load next visited stack :=
          load_visit top
        split
        next => exact ih (by omega) (by omega)
        next k found =>
          have follow := load_follow next stack (by simpa using fresh) found
          have onward : g.walk next steps (top :: visited) (next k ++ stack) =
              g.walk next more (top :: visited) (next k ++ stack) := ih (by omega) (by omega)
          rw [onward]

/-- Graphs with the same edges between some paths, which no edge leaves, are walked alike. -/
theorem walk_congr {Within : Path → Prop} (paths : ∀ q, Within q →
      (new.file? q).map SourceFile.path = (g.file? q).map SourceFile.path)
    (edges : ∀ q f k, Within q → g.file? q = some f → new.file? q = some k →
      next k = next f ∧ ∀ t ∈ next f, Within t)
    (inside : ∀ q ∈ stack, Within q) (steps : Nat) :
    new.walk next steps visited stack = g.walk next steps visited stack := by
  induction steps generalizing visited stack with
  | zero => rfl
  | succ steps ih =>
    cases stack with
    | nil => rfl
    | cons top stack =>
      have rest : ∀ q ∈ stack, Within q := fun q hq => inside q (List.mem_cons_of_mem _ hq)
      have here_ := inside top List.mem_cons_self
      have same := paths top here_
      unfold walk
      split
      next => exact ih rest
      next =>
        cases found : g.file? top with
        | none =>
          rw [found, Option.map_none, Option.map_eq_none_iff] at same
          rw [same]
          exact ih rest
        | some f =>
          rw [found] at same
          obtain ⟨k, found', path⟩ := Option.map_eq_some_iff.mp same
          obtain ⟨out, onward⟩ := edges top f k here_ found found'
          have rest' : ∀ q ∈ next f ++ stack, Within q := fun q hq =>
            (List.mem_append.mp hq).elim (onward q) (rest q)
          rw [found']
          dsimp only
          rw [path, out, ih rest']

theorem reach_congr (Within : Path → Prop) (paths : ∀ q, Within q →
      (new.file? q).map SourceFile.path = (g.file? q).map SourceFile.path)
    (edges : ∀ q f k, Within q → g.file? q = some f → new.file? q = some k →
      next k = next f ∧ ∀ t ∈ next f, Within t) (inside : Within m) :
    new.reach next m = g.reach next m := by
  have start : ∀ q ∈ [m], Within q := by simpa using inside
  let room := max (g.load next [] [m]) (new.load next [] [m])
  calc new.reach next m = new.walk next room [] [m] :=
        walk_enough (Nat.le_of_eq (walkBound_eq new next m).symm) (Nat.le_max_right _ _)
    _ = g.walk next room [] [m] := walk_congr paths edges start room
    _ = g.reach next m :=
        walk_enough (Nat.le_max_left _ _) (Nat.le_of_eq (walkBound_eq g next m).symm)

/-- Whether no way from a path comes by another one. -/
def Avoids (g : FileGraph) (p q : Path) : Prop :=
  ∀ k, g.Leads SourceFile.includes [] q k → k.path.parts ≠ p.parts

theorem Avoids.onward (h : g.Avoids p q) (found : g.file? q = some f) {t : Path}
    (edge : t ∈ f.includes) : g.Avoids p t :=
  fun k leads => h k (.there rfl found edge leads)

theorem avoids_of_family (away : (g.family m).any (· == p) = false) : g.Avoids p m := by
  intro k leads same
  have listed : (g.family m).any (· == p) = true :=
    List.any_eq_true.mpr ⟨k.path, mem_reach.mpr ⟨k, leads, rfl⟩, Path.beq_iff.mpr same⟩
  rw [away] at listed
  cases listed

/-- An edge from a file that avoids a path does not lead to that path. -/
theorem Linked.target_elsewhere (linked : g.Linked) (order : InPathOrder g.files)
    (avoids : g.Avoids p q) (found : g.file? q = some f) {raw : String} {t : Path}
    (hraw : raw ∈ f.rawIncludes) (resolved : g.resolveRaw f.path raw = .ok t) :
    t.parts ≠ p.parts := by
  obtain ⟨-, -, k, hk, path, -⟩ := (resolveRaw_ok order).mp resolved
  obtain ⟨t', edge, parts⟩ := mem_edgesOf.mpr ⟨raw, hraw, t, resolved, rfl⟩
  rw [← (linked.records (file_found found).1).1] at edge
  have target : g.file? t' = some k :=
    (file_congr_parts (parts.trans path.symm)).trans (file_of_mem order hk)
  rw [← path]
  exact avoids k (.there rfl found edge (.here rfl target))

/-- What two linked graphs have to do with each other if only one path was read again. -/
structure SameBut (p : Path) (g new : FileGraph) : Prop where
  linked : g.Linked
  linked' : new.Linked
  order : InPathOrder g.files
  order' : InPathOrder new.files
  own : ∀ q : Path, q.parts ≠ p.parts →
    (new.file? q).map SourceFile.own = (g.file? q).map SourceFile.own

namespace SameBut

/-- A file that avoids the path in both graphs includes the same files, in the same order. -/
theorem includes (h : SameBut p g new) (other : q.parts ≠ p.parts) (avoids : g.Avoids p q)
    (avoids' : new.Avoids p q) (found : g.file? q = some f) (found' : new.file? q = some k) :
    k.includes = f.includes := by
  have own : k.own = f.own := by
    have same := h.own q other
    rw [found, found'] at same
    exact Option.some.inj same
  have path : k.path = f.path := (congrArg SourceFile.path own :)
  have raws : k.rawIncludes = f.rawIncludes := (congrArg SourceFile.rawIncludes own :)
  have reached (g : FileGraph) (raw : String) (t : Path) :
      (g.resolveRaw f.path raw).toOption = some t ↔ g.resolveRaw f.path raw = .ok t := by
    cases g.resolveRaw f.path raw <;> simp [Except.toOption]
  -- An include counts in one graph exactly if it counts in the other: its target is not the path.
  have each : ∀ raw ∈ f.rawIncludes,
      (new.resolveRaw f.path raw).toOption = (g.resolveRaw f.path raw).toOption := by
    intro raw hraw
    refine Option.ext fun t => ?_
    rw [reached, reached]
    constructor
    · intro resolved
      have elsewhere := h.linked'.target_elsewhere h.order' avoids' found' (raws ▸ hraw)
        (path.symm ▸ resolved)
      exact resolveRaw_of_own (h.own t elsewhere) resolved
    · intro resolved
      have elsewhere := h.linked.target_elsewhere h.order avoids found hraw resolved
      exact resolveRaw_of_own (h.own t elsewhere).symm resolved
  rw [(h.linked'.records (file_found found').1).1, (h.linked.records (file_found found).1).1,
    edgesOf, edgesOf, path, raws, List.filterMap_congr each]

/-- A family that avoids the path in both graphs is the same in both. -/
theorem family (h : SameBut p g new) (other : m.parts ≠ p.parts) (avoids : g.Avoids p m)
    (avoids' : new.Avoids p m) : new.family m = g.family m := by
  refine reach_congr (fun q => q.parts ≠ p.parts ∧ g.Avoids p q ∧ new.Avoids p q) ?_ ?_
    ⟨other, avoids, avoids'⟩
  · rintro q ⟨other, -⟩
    have same := congrArg (Option.map SourceFile.path) (h.own q other)
    rwa [Option.map_map, Option.map_map] at same
  · rintro q f k ⟨other, avoids, avoids'⟩ found found'
    have same := h.includes other avoids avoids' found found'
    refine ⟨same, fun t edge => ⟨?_, avoids.onward found edge,
      avoids'.onward found' (same ▸ edge)⟩⟩
    obtain ⟨raw, hraw, x, resolved, parts⟩ :=
      mem_edgesOf.mp ⟨t, (h.linked.records (file_found found).1).1 ▸ edge, rfl⟩
    rw [← parts]
    exact h.linked.target_elsewhere h.order avoids found hraw resolved

end SameBut

theorem family_any_iff :
    (g.family m).any (· == p) = true ↔
      ∃ f ∈ g.files, f.path.parts = p.parts ∧ f.path ∈ g.family m := by
  rw [List.any_eq_true]
  constructor
  · rintro ⟨x, hx, same⟩
    obtain ⟨f, leads, rfl⟩ := mem_reach.mp hx
    exact ⟨f, leads.mem, Path.beq_iff.mp same, hx⟩
  · rintro ⟨f, hf, path, hx⟩
    exact ⟨f.path, hx, Path.beq_iff.mpr path⟩

/-- How a master and a file are spelled does not matter. -/
theorem family_any_congr (same : m.parts = q.parts) :
    (g.family m).any (· == p) = (g.family q).any (· == p) := by
  rw [Bool.eq_iff_iff, family_any_iff, family_any_iff]
  simp only [mem_family_congr same]

theorem isMaster_iff (order : InPathOrder g.files) :
    g.isMaster m = true ↔ ∃ f ∈ g.files, f.path.parts = m.parts ∧ f.parents = [] := by
  rw [isMaster, Option.any_eq_true]
  constructor
  · rintro ⟨f, found, master⟩
    exact ⟨f, (file_found found).1, (file_found found).2, List.isEmpty_iff.mp master⟩
  · rintro ⟨f, hf, path, none_⟩
    exact ⟨f, (file_congr_parts path).symm.trans (file_of_mem order hf),
      List.isEmpty_iff.mpr none_⟩

/-- The masters on record for a path are those whose family holds it. -/
theorem Owned.recorded_iff (owned : g.Owned) (order : InPathOrder g.files) :
    (g.recordedMasters p).any (· == m) = true ↔
      g.isMaster m = true ∧ (g.family m).any (· == p) = true := by
  rw [isMaster_iff order, family_any_iff, List.any_eq_true]
  constructor
  · rintro ⟨x, hx, same⟩
    unfold recordedMasters at hx
    cases found : g.file? p with
    | none => simp [found] at hx
    | some f =>
      obtain ⟨hf, path⟩ := file_found found
      rw [found] at hx
      have known : x ∈ f.masters := hx
      obtain ⟨k, hk, rfl, none_, -⟩ := (owned.mem_masters_iff order hf).mp known
      have inside := (owned.mem_family_iff order hk none_ hf).mpr known
      have parts := Path.beq_iff.mp same
      exact ⟨⟨k, hk, parts, none_⟩, f, hf, path, (mem_family_congr parts).mp inside⟩
  · rintro ⟨⟨k, hk, parts, none_⟩, f, hf, path, inside⟩
    have known := (owned.mem_family_iff order hk none_ hf).mp ((mem_family_congr parts).mpr inside)
    have found : g.file? p = some f := (file_congr_parts path).symm.trans (file_of_mem order hf)
    refine ⟨k.path, ?_, Path.beq_iff.mpr parts⟩
    rw [recordedMasters, found]
    exact known

section Refresh

variable {σ : Type} [Storage σ] {s : σ}

theorem refresh_sameBut (linked : g.Linked) (order : InPathOrder g.files) (s : σ) (p : Path) :
    SameBut p g (g.refresh s p).2.graph where
  linked := linked
  linked' := refresh_linked linked s p
  order := order
  order' := refresh_inPathOrder order s p
  own _ other := refresh_own g s other

/-- A refresh lists masters of the new graph that have the path on record, or had it before. -/
theorem mem_refresh_iff :
    m ∈ (g.refresh s p).1 ↔
      ∃ f ∈ (g.refresh s p).2.graph.files, f.path = m ∧ f.isMaster = true ∧
        ((g.recordedMasters p).any (· == m) = true ∨
          ((g.refresh s p).2.graph.recordedMasters p).any (· == m) = true) := by
  unfold refresh
  cases read : g.reread s p with
  | none =>
    have unrecorded : g.file? p = none := by
      refine List.find?_eq_none.mpr fun f hf => ?_
      have untracked := (untracked_of_unread read).1
      simp only [isTracked, List.any_eq_false] at untracked
      exact untracked f hf
    simp [recordedMasters, unrecorded]
  | some state =>
    dsimp only
    rw [affected, List.mem_map]
    refine exists_congr fun f => ?_
    simp only [List.mem_filter, Bool.and_eq_true, Bool.or_eq_true]
    constructor
    · rintro ⟨⟨hf, master, known⟩, rfl⟩
      exact ⟨hf, rfl, master, known⟩
    · rintro ⟨hf, rfl, master, known⟩
      exact ⟨⟨hf, master, known⟩, rfl⟩

/-- What is to be known of the masters that a refresh of a path reports. -/
structure ReportsAffected (g new : FileGraph) (p : Path) (listed : List Path) : Prop where
  sorted : listed.Pairwise fun a b => a.before b = true
  listed_iff : ∀ m, m ∈ listed ↔ ∃ f ∈ new.files, f.path = m ∧ f.isMaster = true ∧
    ((new.family m).any (· == p) = true ∨
      g.isMaster m = true ∧ (g.family m).any (· == p) = true)
  silent : ∀ m, g.isMaster m = true → new.isMaster m = true → listed.any (· == m) = false →
    new.family m = g.family m ∧ (g.family m).any (· == p) = false

/-- A refresh of a linked graph reports, in the order of their paths, exactly the masters whose
family holds the path now or held it before. A master that was one before and is not reported has
the family that it had, and the path is not in it. -/
theorem refresh_reports_affected (linked : g.Linked) (order : InPathOrder g.files) (s : σ)
    (p : Path) : ReportsAffected g (g.refresh s p).2.graph p (g.refresh s p).1 := by
  have both := refresh_sameBut linked order s p
  have listed_iff (m : Path) : m ∈ (g.refresh s p).1 ↔
      ∃ f ∈ (g.refresh s p).2.graph.files, f.path = m ∧ f.isMaster = true ∧
        (((g.refresh s p).2.graph.family m).any (· == p) = true ∨
          g.isMaster m = true ∧ (g.family m).any (· == p) = true) := by
    rw [mem_refresh_iff]
    refine exists_congr fun f => and_congr_right fun hf => ?_
    constructor
    · rintro ⟨path, master, known⟩
      rw [linked.owned.recorded_iff order, both.linked'.owned.recorded_iff both.order'] at known
      exact ⟨path, master, known.symm.imp_left And.right⟩
    · rintro ⟨path, master, known⟩
      rw [linked.owned.recorded_iff order, both.linked'.owned.recorded_iff both.order']
      have now : (g.refresh s p).2.graph.isMaster m = true :=
        (isMaster_iff both.order').mpr ⟨f, hf, by rw [path], List.isEmpty_iff.mp master⟩
      exact ⟨path, master, (known.imp_left fun inside => ⟨now, inside⟩).symm⟩
  refine ⟨?_, listed_iff, fun m before now silent => ?_⟩
  · unfold refresh
    cases read : g.reread s p with
    | none => exact .nil
    | some state =>
      have order' := both.order'
      rw [refresh, read] at order'
      exact List.pairwise_map.mpr (order'.filter _)
  · obtain ⟨f, found, master⟩ := (Option.any_eq_true _ _).mp now
    obtain ⟨hf, path⟩ := file_found found
    -- The master would be listed under the spelling of its new record.
    have unlisted : f.path ∉ (g.refresh s p).1 := fun mem => by
      have listed : (g.refresh s p).1.any (· == m) = true :=
        List.any_eq_true.mpr ⟨f.path, mem, Path.beq_iff.mpr path⟩
      rw [silent] at listed
      cases listed
    rw [listed_iff] at unlisted
    have was : g.isMaster f.path = true := by
      rwa [isMaster, file_congr_parts path, ← isMaster]
    have away : (g.family m).any (· == p) = false := by
      rw [← family_any_congr path, Bool.eq_false_iff]
      exact fun inside => unlisted ⟨f, hf, rfl, master, .inr ⟨was, inside⟩⟩
    have away' : ((g.refresh s p).2.graph.family m).any (· == p) = false := by
      rw [← family_any_congr path, Bool.eq_false_iff]
      exact fun inside => unlisted ⟨f, hf, rfl, master, .inl inside⟩
    have other : m.parts ≠ p.parts := path ▸ avoids_of_family away' f (.here rfl found)
    exact ⟨both.family other (avoids_of_family away) (avoids_of_family away'), away⟩

end Refresh

/-- Two masters with a part each. -/
def pairedGraph : FileGraph where
  root := .ofText "/story"
  options := { extension := "ink" }
  files := [{ path := .ofText "a.ink", rawIncludes := ["b.ink"] }, { path := .ofText "b.ink" },
    { path := .ofText "c.ink", rawIncludes := ["d.ink"] }, { path := .ofText "d.ink" }]

/-- The first part includes its master. -/
def turnedDisk : MemoryDisk :=
  MemoryDisk.empty.addFile (.ofText "/story/b.ink") "INCLUDE a.ink\n".toUTF8

/-- An include that closes a circle of two cuts the edge that was there. The part becomes a master
and is reported with its former one; the family of the other master is the same. -/
theorem turned_part_reported :
    let g := pairedGraph.relink
    let reading := g.refresh turnedDisk (.ofText "b.ink")
    reading.1.map Path.text = ["a.ink", "b.ink"] ∧
      (g.family (.ofText "a.ink")).map Path.text = ["a.ink", "b.ink"] ∧
      (reading.2.graph.family (.ofText "a.ink")).map Path.text = ["a.ink"] ∧
      (reading.2.graph.family (.ofText "c.ink")).map Path.text = ["c.ink", "d.ink"] ∧
      ReportsAffected g reading.2.graph (.ofText "b.ink") reading.1 := by
  have order : InPathOrder pairedGraph.relink.files := by
    unfold InPathOrder
    decide +kernel
  exact ⟨by decide +kernel, by decide +kernel, by decide +kernel, by decide +kernel,
    refresh_reports_affected (linked_relink pairedGraph) order turnedDisk (.ofText "b.ink")⟩

end StoryBuild.FileGraph
