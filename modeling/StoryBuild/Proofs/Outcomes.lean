import Mathlib.Data.List.Flatten
import Mathlib.Data.List.Perm.Basic
import StoryBuild.Proofs.Owners
import StoryBuild.Proofs.Staleness

namespace StoryBuild

/-- What a compile reports to the graph. -/
structure CompileResult where
  diagnostics : List Diagnostic
  unhandled : List String
  artifact : Option Path
  time : Nat

namespace SourceFile

/-- What compiles have said about a file with one severity. -/
def diagnosed (f : SourceFile) : Severity → List Diagnostic
  | .error => f.errors
  | .warning => f.warnings
  | .author => f.todos

/-- All that compiles have said about a file. -/
def allDiagnosed (f : SourceFile) : List Diagnostic :=
  f.errors ++ f.warnings ++ f.todos

/-- A record on which nothing stands but what a compile has just put on it. -/
def retold (f : SourceFile) (mine : List Diagnostic) : SourceFile :=
  { f with
    errors := mine.filter (·.severity = .error)
    warnings := mine.filter (·.severity = .warning)
    todos := mine.filter (·.severity = .author)
    unhandled := [] }

/-- A record of the master of a compile, with what concerns the compile as a whole. -/
def settled (f : SourceFile) (result : CompileResult) : SourceFile :=
  { f with
    unhandled := result.unhandled
    compiled := some result.time
    artifact := result.artifact <|> f.artifact }

theorem addDiagnostic_eq (f : SourceFile) (d : Diagnostic) :
    f.addDiagnostic d =
      { f with
        errors := f.errors ++ [d].filter (·.severity = .error)
        warnings := f.warnings ++ [d].filter (·.severity = .warning)
        todos := f.todos ++ [d].filter (·.severity = .author) } := by
  unfold addDiagnostic
  cases severity : d.severity <;> simp [severity]

/-- Diagnostics that are added one by one stand in their lists in the order in which they came. -/
theorem foldl_addDiagnostic (f : SourceFile) (ds : List Diagnostic) :
    ds.foldl addDiagnostic f =
      { f with
        errors := f.errors ++ ds.filter (·.severity = .error)
        warnings := f.warnings ++ ds.filter (·.severity = .warning)
        todos := f.todos ++ ds.filter (·.severity = .author) } := by
  induction ds generalizing f with
  | nil => simp
  | cons d rest ih =>
    rw [List.foldl_cons, ih, addDiagnostic_eq]
    simp only [List.append_assoc, ← List.filter_append, List.singleton_append]

theorem foldl_addDiagnostic_clear (f : SourceFile) (ds : List Diagnostic) :
    ds.foldl addDiagnostic f.clearDiagnostics = f.retold ds := by
  rw [foldl_addDiagnostic]
  rfl

theorem allDiagnosed_retold (f : SourceFile) (mine : List Diagnostic) :
    (f.retold mine).allDiagnosed.Perm mine := by
  have others (d : Diagnostic) : (!decide (d.severity = .error)) =
      (decide (d.severity = .warning) || decide (d.severity = .author)) := by
    cases d.severity <;> rfl
  have rest : ((mine.filter (·.severity = .warning)) ++ mine.filter (·.severity = .author)).Perm
      (mine.filter fun d => !decide (d.severity = .error)) := by
    induction mine with
    | nil => rfl
    | cons d rest ih =>
      cases severity : d.severity with
      | error => simpa [severity] using ih
      | warning => simpa [severity] using ih
      | author => simpa [severity] using List.perm_middle.trans (ih.cons d)
  rw [allDiagnosed, List.append_assoc]
  exact (rest.append_left _).trans (List.filter_append_perm _ mine)

end SourceFile

/-- What is dealt out to the members of a list, each piece to one of them, is still the same. -/
theorem flatMap_filter_perm {α β : Type} {gets : α → β → Bool} {l : List α}
    {pieces : List β}
    (one : l.Pairwise fun a b => ∀ d, gets a d = true → gets b d = false)
    (each : ∀ d ∈ pieces, ∃ a ∈ l, gets a d = true) :
    (l.flatMap fun a => pieces.filter (gets a)).Perm pieces := by
  induction l generalizing pieces with
  | nil =>
    have none_ : pieces = [] := List.eq_nil_iff_forall_not_mem.mpr fun d hd => by
      obtain ⟨a, ha, -⟩ := each d hd
      cases ha
    rw [none_]
    rfl
  | cons a rest ih =>
    obtain ⟨first, one⟩ := List.pairwise_cons.mp one
    -- The first member takes its pieces, and the others share what is left.
    let left := pieces.filter fun d => !gets a d
    have same : (rest.flatMap fun b => pieces.filter (gets b)) =
        rest.flatMap fun b => left.filter (gets b) := by
      refine List.flatMap_congr fun b hb => ?_
      rw [List.filter_filter]
      refine List.filter_congr fun d _ => ?_
      cases mine : gets a d with
      | true => simp [first b hb d mine]
      | false => simp
    have each' : ∀ d ∈ left, ∃ b ∈ rest, gets b d = true := by
      intro d hd
      obtain ⟨hd, not_mine⟩ := List.mem_filter.mp hd
      obtain ⟨b, hb, theirs⟩ := each d hd
      rcases List.mem_cons.mp hb with rfl | hb
      · rw [theirs] at not_mine
        cases not_mine
      · exact ⟨b, hb, theirs⟩
    rw [List.flatMap_cons, same]
    exact ((ih one each').append_left _).trans (List.filter_append_perm _ pieces)

namespace FileGraph

variable {g new : FileGraph} {f k : SourceFile} {m n p : Path} {d : Diagnostic}

/-- Puts a compile result on record. -/
def applyResult (g : FileGraph) (master : Path) (r : CompileResult) : FileGraph :=
  g.applyOutcome master r.diagnostics r.unhandled r.artifact r.time

/-- Whether a compile settles what is said about a file. -/
def covers (g : FileGraph) (master : Path) (f : SourceFile) : Bool :=
  (g.family master).any (· == f.path) && (f.path == master || f.isOwnedBy master)

/-- The diagnostics of a compile that are put on a file. -/
def heard (g : FileGraph) (master : Path) (ds : List Diagnostic) (f : SourceFile) :
    List Diagnostic :=
  ds.filter fun d => f.path == g.ownerOf master (g.family master) d

/-- The record of a file after a compile. -/
def recordAfter (g : FileGraph) (master : Path) (r : CompileResult) (f : SourceFile) : SourceFile :=
  if g.covers master f then
    let told := f.retold (g.heard master r.diagnostics f)
    if f.path == master then told.settled r else told
  else f

/-- Diagnostics that are put on record one by one come to the files that they are meant for. -/
theorem foldl_update (owner : Diagnostic → Path) (ds : List Diagnostic) (g : FileGraph) :
    ds.foldl (fun h d => h.update (owner d) (·.addDiagnostic d)) g =
      g.mapFiles fun f =>
        (ds.filter fun d => f.path == owner d).foldl SourceFile.addDiagnostic f := by
  induction ds generalizing g with
  | nil => simp [mapFiles]
  | cons d rest ih =>
    rw [List.foldl_cons, ih, update, mapFiles_mapFiles]
    refine mapFiles_congr fun f _ => ?_
    by_cases here_ : (f.path == owner d) = true
    · have path : (f.addDiagnostic d).path = f.path := by rw [SourceFile.addDiagnostic_eq]
      simp [here_, path]
    · simp [here_]

theorem familyFile?_mem {master : Path} {family : List Path} {name : String}
    (found : familyFile? master family name = some p) : family.any (· == p) = true := by
  unfold familyFile? at found
  dsimp only at found
  split at found
  next q resolved =>
    obtain rfl := Option.some.inj found
    exact (Option.filter_eq_some_iff.mp resolved).2
  next => exact List.any_eq_true.mpr ⟨p, List.mem_of_find?_eq_some found, Path.beq_iff.mpr rfl⟩

theorem mem_family_self (hf : f ∈ g.files) (path : f.path.parts = m.parts) :
    (g.family m).any (· == f.path) = true := by
  have tracked := isTracked_iff.mpr ⟨f, hf, path⟩
  obtain ⟨k, found⟩ := Option.isSome_iff_exists.mp
    ((List.isSome_find?).trans tracked : (g.file? m).isSome = true)
  refine List.any_eq_true.mpr ⟨k.path, mem_reach.mpr ⟨k, .here rfl found, rfl⟩, ?_⟩
  exact Path.beq_iff.mpr ((file_found found).2.trans path.symm)

theorem covers_of_owner (order : InPathOrder g.files) (hf : f ∈ g.files)
    (owner : (f.path == g.ownerOf m (g.family m) d) = true) : g.covers m f = true := by
  have path := Path.beq_iff.mp owner
  unfold ownerOf at path
  cases target : ((d.file.bind (familyFile? m (g.family m))).filter (g.speaksFor m)) with
  | none =>
    rw [target] at path
    have master : f.path.parts = m.parts := path
    rw [covers, mem_family_self hf master, Path.beq_iff.mpr master]
    rfl
  | some q =>
    rw [target] at path
    have target_path : f.path.parts = q.parts := path
    obtain ⟨named, speaks⟩ := Option.filter_eq_some_iff.mp target
    obtain ⟨name, -, found⟩ := Option.bind_eq_some_iff.mp named
    obtain ⟨x, hx, same⟩ := List.any_eq_true.mp (familyFile?_mem found)
    have inside : (g.family m).any (· == f.path) = true :=
      List.any_eq_true.mpr ⟨x, hx, Path.beq_iff.mpr ((Path.beq_iff.mp same).trans path.symm)⟩
    have record : g.file? q = some f := (file_congr_parts path).symm.trans (file_of_mem order hf)
    have spoken : (f.path == m || f.isOwnedBy m) = true := by
      rw [speaksFor, record, Option.any_some] at speaks
      rcases Bool.or_eq_true_iff.mp speaks with master | owned
      · rw [Path.beq_iff.mpr (target_path.trans (Path.beq_iff.mp master))]
        rfl
      · rw [owned, Bool.or_true]
    rw [covers, inside, spoken]
    rfl

/-- A compile result changes the records of the files that it settles, each by itself. -/
theorem applyResult_eq (order : InPathOrder g.files) (m : Path) (r : CompileResult) :
    g.applyResult m r = g.mapFiles (g.recordAfter m r) := by
  rw [applyResult, applyOutcome, foldl_update, clearFamily, mapFiles_mapFiles, update,
    mapFiles_mapFiles]
  refine mapFiles_congr fun f hf => ?_
  unfold recordAfter
  cases settles : g.covers m f with
  | true =>
    have cleared : (if (g.family m).any (· == f.path) && (f.path == m || f.isOwnedBy m) then
        f.clearDiagnostics else f) = f.clearDiagnostics := if_pos settles
    rw [cleared]
    have told : (r.diagnostics.filter fun d =>
        f.clearDiagnostics.path == g.ownerOf m (g.family m) d).foldl SourceFile.addDiagnostic
          f.clearDiagnostics = f.retold (g.heard m r.diagnostics f) :=
      SourceFile.foldl_addDiagnostic_clear f _
    rw [told]
    rfl
  | false =>
    have kept : (if (g.family m).any (· == f.path) && (f.path == m || f.isOwnedBy m) then
        f.clearDiagnostics else f) = f := if_neg (by rw [← covers, settles]; simp)
    have silent : (r.diagnostics.filter fun d => f.path == g.ownerOf m (g.family m) d) = [] := by
      refine List.filter_eq_nil_iff.mpr fun d _ owner => ?_
      rw [covers_of_owner order hf owner] at settles
      cases settles
    have other : (f.path == m) = false := Path.beq_false_iff.mpr fun master => by
      rw [covers, mem_family_self hf master, Path.beq_iff.mpr master] at settles
      cases settles
    rw [kept, silent, List.foldl_nil, other]
    rfl

section Links

variable (links : new.mapFiles SourceFile.linkage = g.mapFiles SourceFile.linkage)

theorem linkage_applyResult (g : FileGraph) (m : Path) (r : CompileResult) :
    (g.applyResult m r).mapFiles SourceFile.linkage = g.mapFiles SourceFile.linkage :=
  linkage_applyOutcome g m _ _ _ _

include links

theorem covers_of_linkage (m : Path) (f : SourceFile) : new.covers m f = g.covers m f := by
  rw [covers, covers, family_of_linkage links]

theorem ownerOf_of_linkage (m : Path) (family : List Path) (d : Diagnostic) :
    new.ownerOf m family d = g.ownerOf m family d := by
  have speaks : new.speaksFor m = g.speaksFor m := by
    funext p
    have master (g : FileGraph) : (g.file? p).any (·.isOwnedBy m) =
        ((g.file? p).map SourceFile.linkage).any (·.isOwnedBy m) := by
      rw [Option.any_map]
      rfl
    rw [speaksFor, speaksFor, master new, file_of_view links (fun _ => rfl), ← master g]
  rw [ownerOf, ownerOf, speaks]

theorem recordAfter_of_linkage (m : Path) (r : CompileResult) (f : SourceFile) :
    new.recordAfter m r f = g.recordAfter m r f := by
  have same : new.heard m r.diagnostics f = g.heard m r.diagnostics f := by
    simp only [heard, family_of_linkage links, ownerOf_of_linkage links]
  rw [recordAfter, recordAfter, covers_of_linkage links, same]

end Links

section Record

variable (g m) (r : CompileResult)

theorem recordAfter_path (f : SourceFile) : (g.recordAfter m r f).path = f.path := by
  unfold recordAfter
  split
  next => split <;> rfl
  next => rfl

theorem recordAfter_masters (f : SourceFile) : (g.recordAfter m r f).masters = f.masters := by
  unfold recordAfter
  split
  next => split <;> rfl
  next => rfl

theorem recordAfter_isOwnedBy (f : SourceFile) (n : Path) :
    (g.recordAfter m r f).isOwnedBy n = f.isOwnedBy n := by
  rw [SourceFile.isOwnedBy, SourceFile.primaryMaster?, recordAfter_masters]
  rfl

theorem covers_recordAfter (f : SourceFile) (n : Path) :
    g.covers n (g.recordAfter m r f) = g.covers n f := by
  rw [covers, covers, recordAfter_path, recordAfter_isOwnedBy]

variable {g m}

theorem recordAfter_of_not_covers (away : g.covers m f = false) : g.recordAfter m r f = f := by
  rw [recordAfter, away]
  rfl

theorem recordAfter_of_covers (settles : g.covers m f = true) :
    g.recordAfter m r f = if f.path == m then (f.retold (g.heard m r.diagnostics f)).settled r
      else f.retold (g.heard m r.diagnostics f) := by
  rw [recordAfter, settles]
  rfl

theorem recordAfter_again (f : SourceFile) :
    g.recordAfter m r (g.recordAfter m r f) = g.recordAfter m r f := by
  cases settles : g.covers m f with
  | false => rw [recordAfter_of_not_covers r settles, recordAfter_of_not_covers r settles]
  | true =>
    have settles' := (covers_recordAfter g m r f m).trans settles
    have same : g.heard m r.diagnostics (g.recordAfter m r f) = g.heard m r.diagnostics f := by
      rw [heard, heard, recordAfter_path]
    rw [recordAfter_of_covers r settles', same, recordAfter_path, recordAfter_of_covers r settles]
    split
    next =>
      have kept : (r.artifact <|> (r.artifact <|> f.artifact)) = (r.artifact <|> f.artifact) := by
        cases r.artifact <;> rfl
      have twice (ds : List Diagnostic) : (((f.retold ds).settled r).retold ds).settled r =
          { (f.retold ds).settled r with
            artifact := r.artifact <|> (r.artifact <|> f.artifact) } := rfl
      rw [twice, kept]
      rfl
    next => rfl

/-- Compiles that do not both settle a file come to the same in either order. -/
theorem recordAfter_comm (r' : CompileResult)
    (apart : g.covers m f = true → g.covers n f = false) :
    g.recordAfter n r' (g.recordAfter m r f) = g.recordAfter m r (g.recordAfter n r' f) := by
  cases settles : g.covers m f with
  | true =>
    have away := apart settles
    rw [recordAfter_of_not_covers r' away,
      recordAfter_of_not_covers r' ((covers_recordAfter g m r f n).trans away)]
  | false =>
    rw [recordAfter_of_not_covers r settles,
      recordAfter_of_not_covers r ((covers_recordAfter g n r' f m).trans settles)]

end Record

theorem applyResult_applyResult (order : InPathOrder g.files) (m n : Path)
    (r r' : CompileResult) : (g.applyResult m r).applyResult n r' =
      g.mapFiles fun f => g.recordAfter n r' (g.recordAfter m r f) := by
  have order' : InPathOrder (g.applyResult m r).files := by
    rw [applyResult_eq order]
    exact order.map (recordAfter_path g m r)
  -- What the later result does goes by the links, which the earlier one leaves alone.
  rw [applyResult_eq order', funext (recordAfter_of_linkage (linkage_applyResult g m r) n r'),
    applyResult_eq order, mapFiles_mapFiles]

section Computed

variable (g)

theorem owned_rebuildOwnership : g.rebuildOwnership.Owned := by
  let up (f : SourceFile) : SourceFile := { f with parents := g.parentsOf f.path }
  have up_path : ∀ f, (up f).path = f.path := fun _ => rfl
  have path : ∀ f, (g.withParents.owned f).path = f.path := fun _ => rfl
  have parents (p : Path) : g.rebuildOwnership.parentsOf p = g.parentsOf p :=
    (parentsOf_mapFiles g.withParents path (fun _ => rfl) p).trans
      (parentsOf_mapFiles g up_path (fun _ => rfl) p)
  have masters (p : Path) : g.rebuildOwnership.mastersOf p = g.withParents.mastersOf p :=
    mastersOf_mapFiles g.withParents path (fun _ => rfl) p
  constructor
  all_goals
    intro f hf
    obtain ⟨k, hk, rfl⟩ := List.mem_map.mp hf
  · obtain ⟨j, -, rfl⟩ := List.mem_map.mp hk
    exact (parents _).symm
  · exact (masters _).symm

theorem rebuildOwnership_inPathOrder (order : InPathOrder g.files) :
    InPathOrder g.rebuildOwnership.files := by
  rw [rebuildOwnership, withParents, mapFiles_mapFiles]
  exact order.map fun _ => rfl

end Computed

section Owned

variable (owned : g.Owned) (order : InPathOrder g.files)

include owned order

/-- A compile of a master settles the files that the master is the first of the masters of. -/
theorem Owned.covers_eq (master : g.isMaster m = true) (hf : f ∈ g.files) :
    g.covers m f = f.isOwnedBy m := by
  obtain ⟨k, found, alone⟩ := (Option.any_eq_true _ _).mp master
  obtain ⟨hk, path⟩ := file_found found
  have none_ := List.isEmpty_iff.mp alone
  rw [Bool.eq_iff_iff, covers, Bool.and_eq_true]
  constructor
  · rintro ⟨-, spoken⟩
    rcases Bool.or_eq_true_iff.mp spoken with same | first
    · obtain rfl := order.unique hk hf (path.trans (Path.beq_iff.mp same).symm)
      rw [SourceFile.isOwnedBy, SourceFile.primaryMaster?,
        owned.masters_of_master order hk none_]
      exact same
    · exact first
  · intro first
    obtain ⟨x, head, same⟩ := (Option.any_eq_true _ _).mp first
    have known := List.mem_of_mem_head? head
    obtain ⟨j, hj, rfl, -⟩ := (owned.mem_masters_iff order hf).mp known
    obtain rfl := order.unique hj hk ((Path.beq_iff.mp same).trans path.symm)
    have inside := (owned.mem_family_iff order hj none_ hf).mpr known
    rw [first, Bool.or_true]
    refine ⟨List.any_eq_true.mpr ⟨f.path, ?_, Path.beq_iff.mpr rfl⟩, rfl⟩
    exact (mem_family_congr path).mp inside

end Owned

theorem isOwnedBy_other (own : f.isOwnedBy m = true) (apart : (m == n) = false) :
    f.isOwnedBy n = false := by
  obtain ⟨x, head, same⟩ := (Option.any_eq_true _ _).mp own
  rw [SourceFile.isOwnedBy, head, Option.any_some, Path.beq_false_iff]
  exact fun same' => Path.beq_false_iff.mp apart ((Path.beq_iff.mp same).symm.trans same')

theorem owner_tracked (master : g.isMaster m = true) (d : Diagnostic) :
    ∃ f ∈ g.files, (f.path == g.ownerOf m (g.family m) d) = true := by
  have tracked : g.isTracked (g.ownerOf m (g.family m) d) = true := by
    unfold ownerOf
    cases target : ((d.file.bind (familyFile? m (g.family m))).filter (g.speaksFor m)) with
    | none =>
      obtain ⟨k, found, -⟩ := (Option.any_eq_true _ _).mp master
      obtain ⟨hk, path⟩ := file_found found
      exact isTracked_iff.mpr ⟨k, hk, path⟩
    | some q =>
      obtain ⟨named, -⟩ := Option.filter_eq_some_iff.mp target
      obtain ⟨name, -, found⟩ := Option.bind_eq_some_iff.mp named
      obtain ⟨x, hx, same⟩ := List.any_eq_true.mp (familyFile?_mem found)
      obtain ⟨k, hk, path⟩ := isTracked_iff.mp (tracked_of_family hx)
      exact isTracked_iff.mpr ⟨k, hk, path.trans (Path.beq_iff.mp same)⟩
  obtain ⟨f, hf, path⟩ := isTracked_iff.mp tracked
  exact ⟨f, hf, Path.beq_iff.mpr path⟩

/-- What the result of a compile of a master does to the graph. -/
structure SettlesItsOwn (g : FileGraph) (m : Path) (r : CompileResult) : Prop where
  links : (g.applyResult m r).mapFiles SourceFile.linkage = g.mapFiles SourceFile.linkage
  others : ∀ f ∈ g.files, f.isOwnedBy m = false → f ∈ (g.applyResult m r).files
  told : (((g.applyResult m r).files.filter (·.isOwnedBy m)).flatMap
    SourceFile.allDiagnosed).Perm r.diagnostics
  in_order : ∀ f ∈ (g.applyResult m r).files, f.isOwnedBy m = true → ∀ severity,
    (f.diagnosed severity).Sublist (r.diagnostics.filter (·.severity = severity))
  unhandled : ∀ f ∈ (g.applyResult m r).files, f.isOwnedBy m = true →
    f.unhandled = if f.path == m then r.unhandled else []
  again : (g.applyResult m r).applyResult m r = g.applyResult m r

section Owned

variable (owned : g.Owned) (order : InPathOrder g.files) (master : g.isMaster m = true)
  (r : CompileResult)

include owned order master

theorem Owned.mem_applyResult (hf : f ∈ (g.applyResult m r).files) (own : f.isOwnedBy m = true) :
    ∃ k, f = g.recordAfter m r k ∧ g.covers m k = true := by
  rw [applyResult_eq order] at hf
  obtain ⟨k, hk, rfl⟩ := List.mem_map.mp hf
  rw [recordAfter_isOwnedBy] at own
  exact ⟨k, rfl, (owned.covers_eq order master hk).trans own⟩

theorem Owned.told : (((g.applyResult m r).files.filter (·.isOwnedBy m)).flatMap
    SourceFile.allDiagnosed).Perm r.diagnostics := by
  have files : (g.applyResult m r).files.filter (·.isOwnedBy m) =
      (g.files.filter (·.isOwnedBy m)).map (g.recordAfter m r) := by
    rw [applyResult_eq order, mapFiles, List.filter_map]
    simp only [Function.comp_def, recordAfter_isOwnedBy]
  have each : ∀ f ∈ g.files.filter (·.isOwnedBy m),
      (g.recordAfter m r f).allDiagnosed.Perm (g.heard m r.diagnostics f) := by
    intro f hf
    obtain ⟨hf, own⟩ := List.mem_filter.mp hf
    rw [recordAfter_of_covers r ((owned.covers_eq order master hf).trans own)]
    split <;> exact SourceFile.allDiagnosed_retold f _
  rw [files, List.flatMap_map]
  refine (List.Perm.flatMap_left _ each).trans (flatMap_filter_perm ?_ fun d _ => ?_)
  · refine (order.filter _).imp fun before d here_ => Path.beq_false_iff.mpr fun there => ?_
    exact Path.before_ne before ((Path.beq_iff.mp here_).trans there.symm)
  · obtain ⟨f, hf, here_⟩ := owner_tracked master d
    have own := (owned.covers_eq order master hf).symm.trans (covers_of_owner order hf here_)
    exact ⟨f, List.mem_filter.mpr ⟨hf, own⟩, here_⟩

theorem Owned.in_order (hf : f ∈ (g.applyResult m r).files) (own : f.isOwnedBy m = true)
    (severity : Severity) :
    (f.diagnosed severity).Sublist (r.diagnostics.filter (·.severity = severity)) := by
  obtain ⟨k, rfl, settles⟩ := owned.mem_applyResult order master r hf own
  rw [recordAfter_of_covers r settles]
  have mine : (g.heard m r.diagnostics k).Sublist r.diagnostics := List.filter_sublist
  split <;> cases severity <;> exact mine.filter _

theorem Owned.settlesItsOwn : g.SettlesItsOwn m r where
  links := linkage_applyResult g m r
  others := by
    intro f hf other
    rw [applyResult_eq order]
    exact List.mem_map.mpr ⟨f, hf,
      recordAfter_of_not_covers r ((owned.covers_eq order master hf).trans other)⟩
  told := owned.told order master r
  in_order := fun f hf own => owned.in_order order master r hf own
  unhandled := by
    intro f hf own
    obtain ⟨k, rfl, settles⟩ := owned.mem_applyResult order master r hf own
    rw [recordAfter_path, recordAfter_of_covers r settles]
    split <;> rfl
  again := by
    rw [applyResult_applyResult order, applyResult_eq order]
    exact mapFiles_congr fun f _ => recordAfter_again r f

end Owned

/-- Compile results of different masters do not meet. They come to the same graph in either order,
and each settles the files whose primary master it is of, with exactly the diagnostics of that
compile, and leaves all other records as they were. -/
theorem results_apart (owned : g.Owned) (order : InPathOrder g.files)
    (master : g.isMaster m = true) (master' : g.isMaster n = true) (apart : (m == n) = false)
    (r r' : CompileResult) :
    (g.applyResult m r).applyResult n r' = (g.applyResult n r').applyResult m r ∧
      g.SettlesItsOwn m r := by
  refine ⟨?_, owned.settlesItsOwn order master r⟩
  rw [applyResult_applyResult order, applyResult_applyResult order]
  refine mapFiles_congr fun f hf => recordAfter_comm r r' fun settles => ?_
  rw [owned.covers_eq order master' hf]
  exact isOwnedBy_other ((owned.covers_eq order master hf).symm.trans settles) apart

/-- Two masters that include the same part. -/
def sharedPart : FileGraph where
  root := .ofText "/story"
  options := { extension := "ink" }
  files := [{ path := .ofText "a.ink", includes := [.ofText "part.ink"] },
    { path := .ofText "b.ink", includes := [.ofText "part.ink"] },
    { path := .ofText "part.ink" }]

/-- A compile that finds fault with the part and with a file that nobody knows. -/
def faultyPart : CompileResult where
  diagnostics := [⟨.error, some "part.ink", some 1, "broken"⟩,
    ⟨.error, some "c.ink", none, "lost"⟩]
  unhandled := ["stopped"]
  artifact := none
  time := 7

/-- The part belongs to the first master, so what the second one finds stays with the second. -/
theorem shared_part_results :
    let g := sharedPart.rebuildOwnership
    let a := Path.ofText "a.ink"
    let b := Path.ofText "b.ink"
    ((g.applyResult a faultyPart).files.map fun f => f.errors.map (·.message)) =
        [["lost"], [], ["broken"]] ∧
      ((g.applyResult b faultyPart).files.map fun f => f.errors.map (·.message)) =
        [[], ["broken", "lost"], []] ∧
      (g.applyResult a faultyPart).applyResult b faultyPart =
        (g.applyResult b faultyPart).applyResult a faultyPart ∧
      g.SettlesItsOwn a faultyPart := by
  have order : InPathOrder sharedPart.rebuildOwnership.files :=
    rebuildOwnership_inPathOrder _ (by unfold InPathOrder; decide +kernel)
  exact ⟨by decide +kernel, by decide +kernel,
    results_apart (owned_rebuildOwnership _) order (by decide +kernel) (by decide +kernel)
      (by decide +kernel) faultyPart faultyPart⟩

end FileGraph

end StoryBuild
