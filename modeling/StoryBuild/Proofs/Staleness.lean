import StoryBuild.Graph.Staleness
import StoryBuild.Proofs.Families

namespace StoryBuild

namespace Storage

variable {σ : Type} [Storage σ]

/-- The modification time of a file, if it can be read. -/
def time? (s : σ) (p : Path) : Option Nat :=
  (Storage.modified s p).1.toOption

/-- Whether reading modification times leaves a storage as it is. -/
def Steady (s : σ) : Prop :=
  ∀ p, (Storage.modified s p).2 = s

end Storage

/-- The path of a record and its time. -/
def SourceFile.dated (f : SourceFile) : SourceFile :=
  { path := f.path, modified := f.modified }

namespace FileGraph

variable {σ : Type} [Storage σ] {g new : FileGraph} {s s' : σ} {f : SourceFile} {m p : Path}
  {time : Nat}

/-- The time of a source: that on the disk, or else that on record. -/
def sourceTime (g : FileGraph) (s : σ) (p : Path) : Option Nat :=
  Storage.time? s (g.absolute p) <|> (g.file? p).bind SourceFile.modified

/-- No file of the family of a master is newer than its artifact. -/
structure UpToDate (g : FileGraph) (s : σ) (master : SourceFile) : Prop where
  handled : master.unhandled = []
  newest : ∃ time, Storage.time? s (g.absolute (g.artifactPath master.path)) = some time ∧
    ∀ p ∈ g.family master.path, ∀ t, g.sourceTime s p = some t → t ≤ time

/-- A path is up to date if it is not tracked, or its record is. -/
def Current (g : FileGraph) (s : σ) (m : Path) : Prop :=
  ∀ f, g.file? m = some f → g.UpToDate s f

theorem modifiedTwice_steady (steady : Storage.Steady s) (p : Path) :
    (modifiedTwice s p).2 = s ∧ (modifiedTwice s p).1.toOption = Storage.time? s p := by
  have same := steady p
  unfold modifiedTwice Storage.time?
  cases read : Storage.modified s p with
  | mk answer s' =>
    rw [read] at same
    obtain rfl : s' = s := same
    cases answer with
    | ok time => exact ⟨rfl, rfl⟩
    | error cause =>
      dsimp only
      rw [read]
      exact ⟨rfl, rfl⟩

theorem anyNewer_steady (steady : Storage.Steady s) (time : Nat) (l : List Path) :
    (g.anyNewer time s l).2 = s ∧
      ((g.anyNewer time s l).1 = false ↔ ∀ p ∈ l, ∀ t, g.sourceTime s p = some t → t ≤ time) := by
  induction l with
  | nil => exact ⟨rfl, by simp [anyNewer]⟩
  | cons p rest ih =>
    have read : Storage.modified s (g.absolute p) =
        ((Storage.modified s (g.absolute p)).1, s) := by
      rw [← congrArg (Prod.mk _) (steady (g.absolute p))]
    unfold anyNewer
    rw [read]
    dsimp only
    have known : ((Storage.modified s (g.absolute p)).1.toOption <|>
        (g.file? p).bind SourceFile.modified) = g.sourceTime s p := rfl
    rw [known]
    split
    next newer =>
      obtain ⟨t, there, later⟩ := (Option.any_eq_true _ _).mp newer
      refine ⟨rfl, ⟨nofun, fun old => ?_⟩⟩
      have := old p List.mem_cons_self t there
      simp only [decide_eq_true_eq] at later
      omega
    next not_newer =>
      refine ⟨ih.1, ih.2.trans ?_⟩
      rw [List.forall_mem_cons]
      refine ⟨fun others => ⟨fun t there => ?_, others⟩, And.right⟩
      rw [there] at not_newer
      simpa using not_newer

theorem isStale_steady (steady : Storage.Steady s) (f : SourceFile) :
    (g.isStale s f).2 = s ∧ ((g.isStale s f).1 = false ↔ g.UpToDate s f) := by
  have read := steady (g.absolute (g.artifactPath f.path))
  unfold isStale
  split
  next failed =>
    refine ⟨rfl, ⟨nofun, fun h => ?_⟩⟩
    rw [h.handled] at failed
    cases failed
  next handled =>
    have handled' : f.unhandled = [] := by simpa using handled
    split
    next cause s' missing =>
      rw [missing] at read
      refine ⟨read, ⟨nofun, fun h => ?_⟩⟩
      obtain ⟨time, there, -⟩ := h.newest
      rw [Storage.time?, missing] at there
      cases there
    next time s' there =>
      rw [there] at read
      obtain rfl : s' = s := read
      obtain ⟨same, newer⟩ := anyNewer_steady (g := g) steady time (g.family f.path)
      have time_eq : Storage.time? s' (g.absolute (g.artifactPath f.path)) = some time := by
        rw [Storage.time?, there]
        rfl
      refine ⟨same, newer.trans ⟨fun old => ⟨handled', time, time_eq, old⟩, fun h => ?_⟩⟩
      obtain ⟨time', there', old⟩ := h.newest
      rw [time_eq, Option.some.injEq] at there'
      rwa [there']

/-- Exactly the masters that are not up to date have to be compiled. -/
theorem staleMasters_steady (steady : Storage.Steady s) :
    (g.staleMasters s).2 = s ∧ ∀ p, p ∈ (g.staleMasters s).1 ↔
      ∃ f ∈ g.masterFiles, f.path = p ∧ ¬ g.UpToDate s f := by
  have loop (l : List SourceFile) : (g.staleAmong s l).2 = s ∧ ∀ p, p ∈ (g.staleAmong s l).1 ↔
      ∃ f ∈ l, f.path = p ∧ ¬ g.UpToDate s f := by
    induction l with
    | nil => exact ⟨rfl, by simp [staleAmong]⟩
    | cons f rest ih =>
      obtain ⟨same, stale⟩ := isStale_steady (g := g) steady f
      unfold staleAmong
      dsimp only
      rw [same]
      refine ⟨ih.1, fun p => ?_⟩
      simp only [List.mem_cons, exists_eq_or_imp]
      rw [← ih.2 p, ← stale, Bool.not_eq_false]
      cases (g.isStale s f).1 with
      | true => simp [eq_comm]
      | false => simp
  exact loop g.masterFiles

/-- The last compile of a path did not fail outright. -/
def Handled (g : FileGraph) (p : Path) : Prop :=
  ∀ f, g.file? p = some f → f.unhandled = []

/-- What a graph and a storage may become without a master being outdated. -/
structure Spares (g : FileGraph) (s : σ) (new : FileGraph) (s' : σ) : Prop where
  links : new.mapFiles SourceFile.linkage = g.mapFiles SourceFile.linkage
  recorded : new.mapFiles SourceFile.dated = g.mapFiles SourceFile.dated
  handled : ∀ p, g.Handled p → new.Handled p
  sources : ∀ p, g.isTracked p = true →
    Storage.time? s' (g.absolute p) = Storage.time? s (g.absolute p)
  artifacts : ∀ p t, Storage.time? s p = some t → ∃ t', Storage.time? s' p = some t' ∧ t ≤ t'

omit [Storage σ] in
/-- A file of a family is tracked. -/
theorem tracked_of_family (h : p ∈ g.family m) : g.isTracked p = true := by
  obtain ⟨f, leads, rfl⟩ := mem_reach.mp h
  exact isTracked_iff.mpr ⟨f, leads.mem, rfl⟩

omit [Storage σ] in
theorem mem_family_congr {q : Path} (same : m.parts = q.parts) :
    p ∈ g.family m ↔ p ∈ g.family q := by
  have one {m q : Path} (same : m.parts = q.parts) (h : p ∈ g.family m) : p ∈ g.family q := by
    obtain ⟨f, leads, path⟩ := mem_reach.mp h
    exact mem_reach.mpr ⟨f, leads.congr same, path⟩
  exact ⟨one same, one same.symm⟩

omit [Storage σ] in
theorem family_of_linkage (links : new.mapFiles SourceFile.linkage = g.mapFiles SourceFile.linkage)
    (p : Path) : new.family p = g.family p := by
  have path : ∀ f : SourceFile, f.linkage.path = f.path := fun _ => rfl
  have includes : ∀ f : SourceFile, f.linkage.includes = f.includes := fun _ => rfl
  have linked (g : FileGraph) : (g.mapFiles SourceFile.linkage).family p = g.family p :=
    reach_mapFiles g path includes p
  rw [← linked new, links, linked g]

omit [Storage σ] in
theorem isTracked_of_linkage
    (links : new.mapFiles SourceFile.linkage = g.mapFiles SourceFile.linkage) (p : Path) :
    new.isTracked p = g.isTracked p := by
  have path : ∀ f : SourceFile, f.linkage.path = f.path := fun _ => rfl
  rw [← isTracked_mapFiles new path, links, isTracked_mapFiles g path]

omit [Storage σ] in
/-- Records that look alike in a view that tells their times have the same time. -/
theorem modified_of_view {view : SourceFile → SourceFile}
    (same : (new.file? p).map view = (g.file? p).map view)
    (time : ∀ f, (view f).modified = f.modified) :
    (new.file? p).bind SourceFile.modified = (g.file? p).bind SourceFile.modified := by
  have read := congrArg (Option.bind · SourceFile.modified) same
  simpa only [Option.bind_map, Function.comp_def, time] using read

theorem sourceTime_of_view
    (links : new.mapFiles SourceFile.linkage = g.mapFiles SourceFile.linkage)
    (recorded : new.mapFiles SourceFile.dated = g.mapFiles SourceFile.dated)
    (same : Storage.time? s' (g.absolute p) = Storage.time? s (g.absolute p)) :
    new.sourceTime s' p = g.sourceTime s p := by
  have place : new.place = g.place := (congrArg FileGraph.place links :)
  have known := modified_of_view (file_of_view recorded (fun _ => rfl) p) fun _ => rfl
  rw [sourceTime, sourceTime, absolute_of_place place, known, same]

theorem Spares.refl (g : FileGraph) (s : σ) : g.Spares s g s :=
  ⟨rfl, rfl, fun _ => id, fun _ _ => rfl, fun _ t there => ⟨t, there, Nat.le_refl t⟩⟩

theorem Spares.trans {next : FileGraph} {s'' : σ} (h : g.Spares s new s')
    (h' : new.Spares s' next s'') : g.Spares s next s'' := by
  have place : new.place = g.place := (congrArg FileGraph.place h.links :)
  refine ⟨h'.links.trans h.links, h'.recorded.trans h.recorded, fun p => h'.handled p ∘ h.handled p,
    ?_, ?_⟩
  · intro p tracked
    have onward := h'.sources p ((isTracked_of_linkage h.links p).trans tracked)
    rw [absolute_of_place place] at onward
    exact onward.trans (h.sources p tracked)
  · intro p t there
    obtain ⟨t', there', later⟩ := h.artifacts p t there
    obtain ⟨t'', there'', later'⟩ := h'.artifacts p t' there'
    exact ⟨t'', there'', Nat.le_trans later later'⟩

/-- What is up to date stays so. -/
theorem Spares.current (h : g.Spares s new s') (current : g.Current s m) : new.Current s' m := by
  intro k after
  have links := file_of_view h.links (fun _ => rfl) m
  rw [after] at links
  obtain ⟨f, before, same⟩ := Option.map_eq_some_iff.mp links.symm
  have path : k.path = f.path := (congrArg SourceFile.path same :).symm
  have place : new.place = g.place := (congrArg FileGraph.place h.links :)
  obtain ⟨time, there, old⟩ := (current f before).newest
  have handled : g.Handled m := fun f before => (current f before).handled
  refine ⟨h.handled m handled k after, ?_⟩
  obtain ⟨time', there', later⟩ := h.artifacts _ _ there
  refine ⟨time', ?_, ?_⟩
  · rw [path, artifact_of_place place]
    exact there'
  · intro p hp t at_
    rw [path, family_of_linkage h.links] at hp
    have source := sourceTime_of_view h.links h.recorded (h.sources p (tracked_of_family hp))
    exact Nat.le_trans (old p hp t (source ▸ at_)) later

theorem refresh_storage (steady : Storage.Steady s) (g : FileGraph) (p : Path) :
    (g.refresh s p).2.storage = s := by
  unfold refresh
  cases read : g.reread s p with
  | none => rfl
  | some state =>
    obtain ⟨new, s'⟩ := state
    change s' = s
    cases rereads_of_reread read with
    | vanished => rfl
    | _ => exact steady _

/-- What holds of the paths and times of all records holds after a file is read again, if it holds
with the time that was read. -/
theorem reparse_dated {P : Path → Option Nat → Prop} (old : ∀ f ∈ g.files, P f.path f.modified)
    (read : ∀ q time, P q time → P q (Storage.time? s (g.absolute p) <|> time)) :
    ∀ f ∈ (g.reparse s p).1.files, P f.path f.modified := by
  intro f hf
  obtain ⟨k, hk, rfl⟩ := List.mem_map.mp hf
  split
  next => exact read k.path k.modified (old k hk)
  next => exact old k hk

/-- What holds of the paths and times of all records holds after a refresh, if it holds of the path
without a time and with the time that was read. -/
theorem refresh_dated {P : Path → Option Nat → Prop}
    (old : ∀ f ∈ g.files, P f.path f.modified) (fresh : P p none)
    (read : ∀ q time, P q time → P q (Storage.time? s (g.absolute p) <|> time)) :
    ∀ f ∈ (g.refresh s p).2.graph.files, P f.path f.modified := by
  intro f hf
  unfold refresh at hf
  cases reading : g.reread s p with
  | none =>
    rw [reading] at hf
    exact old f hf
  | some state =>
    rw [reading] at hf
    obtain ⟨new, s'⟩ := state
    obtain ⟨k, hk, own⟩ := mem_of_view (own_relink new) hf
    have path : k.path = f.path := (congrArg SourceFile.path own :)
    have time : k.modified = f.modified := (congrArg SourceFile.modified own :)
    rw [← path, ← time]
    cases rereads_of_reread reading with
    | changed => exact reparse_dated old read k hk
    | appeared _ untracked =>
      have inserted : ∀ x ∈ (g.insert { path := p }).files, P x.path x.modified := by
        intro x hx
        rcases (mem_insert (f := { path := p }) untracked).mp hx with rfl | hx
        · exact fresh
        · exact old x hx
      exact reparse_dated inserted read k hk
    | vanished => exact old k (List.mem_filter.mp hk).1

/-- A master that is not reported stays up to date, if the times of its artifact and of all files
other than the path are as they were. -/
theorem refresh_current (linked : g.Linked) (order : InPathOrder g.files)
    (is_master : (g.refresh s' p).2.graph.isMaster m = true)
    (silent : ∀ x ∈ (g.refresh s' p).1, x.parts ≠ m.parts)
    (artifact : ∀ q : Path, q.parts = m.parts →
      Storage.time? s' (g.absolute (g.artifactPath q)) =
        Storage.time? s (g.absolute (g.artifactPath q)))
    (sources : ∀ q ∈ (g.refresh s' p).2.graph.family m, q.parts ≠ p.parts →
      Storage.time? s' (g.absolute q) = Storage.time? s (g.absolute q))
    (current : g.Current s m) : (g.refresh s' p).2.graph.Current s' m := by
  have place := refresh_place g s' p
  have family := refresh_unreported linked order is_master silent
  have kept (q : Path) (other : q.parts ≠ p.parts) := refresh_own g s' other
  intro k found
  obtain ⟨hk, path⟩ := file_found found
  have self : k.path ∈ (g.refresh s' p).2.graph.family m :=
    mem_reach.mpr ⟨k, .here rfl found, rfl⟩
  have recorded := kept m (path ▸ (family _ self).1)
  rw [found] at recorded
  obtain ⟨f, before, own⟩ := Option.map_eq_some_iff.mp recorded.symm
  have path' : k.path = f.path := (congrArg SourceFile.path own :).symm
  obtain ⟨handled, time, there, old⟩ := current f before
  refine ⟨(congrArg SourceFile.unhandled own :).symm.trans handled, time, ?_, fun q hq t at_ => ?_⟩
  · rw [path', artifact_of_place place]
    exact (artifact f.path (path' ▸ path)).trans there
  · have hq := (mem_family_congr path).mp hq
    obtain ⟨other, older⟩ := family q hq
    have source : g.sourceTime s q = some t := by
      rw [sourceTime, absolute_of_place place,
        modified_of_view (kept q other) fun _ => rfl] at at_
      rwa [sourceTime, ← sources q hq other]
    exact old q ((mem_family_congr (path' ▸ path)).mpr older) t source

end FileGraph

end StoryBuild
