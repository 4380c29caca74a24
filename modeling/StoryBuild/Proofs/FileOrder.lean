import StoryBuild.Graph.Refresh
import StoryBuild.Proofs.Tracking

namespace StoryBuild.FileGraph

/-- A graph without its files. -/
def place (g : FileGraph) : FileGraph :=
  empty g.root g.options

variable {σ : Type} [Storage σ] {g new : FileGraph} {f : SourceFile} {p : Path}

omit [Storage σ] in
theorem absolute_of_place (same : new.place = g.place) (p : Path) :
    new.absolute p = g.absolute p := by
  have root : new.root = g.root := (congrArg FileGraph.root same :)
  rw [absolute, absolute, root]

omit [Storage σ] in
/-- Where artifacts go is told by the place of a graph. -/
theorem artifact_of_place (same : new.place = g.place) (m : Path) :
    new.absolute (new.artifactPath m) = g.absolute (g.artifactPath m) := by
  have options : new.options = g.options := (congrArg FileGraph.options same :)
  rw [absolute_of_place same, artifactPath, artifactPath, options]

omit [Storage σ] in
theorem inPathOrder_congr (h : InPathOrder g.files) (paths : new.paths = g.paths) :
    InPathOrder new.files := by
  have old : g.paths.Pairwise fun p q => p.before q = true := List.pairwise_map.mpr h
  rw [← paths] at old
  exact List.pairwise_map.mp old

omit [Storage σ] in
theorem file_of_mem (h : InPathOrder g.files) (hf : f ∈ g.files) : g.file? f.path = some f := by
  cases found : g.file? f.path with
  | none =>
    have other := List.find?_eq_none.mp found f hf
    simp [Path.beq_iff] at other
  | some k =>
    obtain ⟨hk, same⟩ := file_found found
    rw [h.unique hk hf same]

omit [Storage σ] in
theorem insert_inPathOrder (h : InPathOrder g.files) (untracked : g.isTracked f.path = false) :
    InPathOrder (g.insert f).files :=
  insertByPath_order h (not_tracked untracked)

omit [Storage σ] in
theorem relink_paths (g : FileGraph) : g.relink.paths = g.paths :=
  paths_of_mapFiles (bare_relink g) fun _ => rfl

theorem reparse_paths (g : FileGraph) (s : σ) (p : Path) : (g.reparse s p).1.paths = g.paths := by
  unfold reparse update mapFiles FileGraph.paths
  dsimp only
  rw [List.map_map]
  refine List.map_congr_left fun f _ => ?_
  simp only [Function.comp_apply]
  split <;> rfl

/-- What holds through every reading of one path holds through readings of many. -/
theorem reparseAll_preserves {M : FileGraph → σ → Prop}
    (step : ∀ {g s} p, M g s → M (g.reparse s p).1 (g.reparse s p).2) {s : σ} (h : M g s)
    (l : List Path) : M (g.reparseAll s l).1 (g.reparseAll s l).2 := by
  unfold reparseAll
  induction l generalizing g s with
  | nil => exact h
  | cons p rest ih => exact ih (step p h)

theorem reparseAll_paths (g : FileGraph) (s : σ) (l : List Path) :
    (g.reparseAll s l).1.paths = g.paths :=
  reparseAll_preserves (M := fun new _ => new.paths = g.paths)
    (fun p same => (reparse_paths _ _ p).trans same) rfl l

theorem reparseAll_place (g : FileGraph) (s : σ) (l : List Path) :
    (g.reparseAll s l).1.place = g.place :=
  reparseAll_preserves (M := fun new _ => new.place = g.place) (fun _ same => same) rfl l

/-- What a graph becomes when a path is read again: its file has changed, appeared or vanished. -/
inductive Rereads (g : FileGraph) (s : σ) (p : Path) : FileGraph → σ → Prop
  | changed (file : Storage.isFile s (g.absolute p) = true) (tracked : g.isTracked p = true) :
      Rereads g s p (g.reparse s p).1 (g.reparse s p).2
  | appeared (file : Storage.isFile s (g.absolute p) = true) (untracked : g.isTracked p = false)
      (source : g.options.isSource p = true) :
      Rereads g s p ((g.insert { path := p }).reparse s p).1
        ((g.insert { path := p }).reparse s p).2
  | vanished (gone : Storage.isFile s (g.absolute p) = false) (tracked : g.isTracked p = true) :
      Rereads g s p (g.erase p) s

theorem rereads_of_reread {s s' : σ} (read : g.reread s p = some (new, s')) :
    g.Rereads s p new s' := by
  unfold reread at read
  split at read
  next file =>
    split at read
    next tracked =>
      obtain ⟨rfl, rfl⟩ := Prod.mk.inj (Option.some.inj read)
      exact .changed file tracked
    next untracked =>
      split at read
      next source =>
        obtain ⟨rfl, rfl⟩ := Prod.mk.inj (Option.some.inj read)
        exact .appeared file (by simpa using untracked) source
      next => cases read
  next gone =>
    split at read
    next tracked =>
      obtain ⟨rfl, rfl⟩ := Prod.mk.inj (Option.some.inj read)
      exact .vanished (by simpa using gone) tracked
    next => cases read

/-- Nothing is read again where nothing is tracked and no source has appeared. -/
theorem untracked_of_unread {s : σ} (unread : g.reread s p = none) :
    g.isTracked p = false ∧
      (g.options.isSource p = false ∨ Storage.isFile s (g.absolute p) = false) := by
  unfold reread at unread
  split at unread
  next =>
    split at unread
    next => cases unread
    next untracked =>
      split at unread
      next => cases unread
      next no_source => exact ⟨by simpa using untracked, .inl (by simpa using no_source)⟩
  next gone =>
    split at unread
    next => cases unread
    next untracked => exact ⟨by simpa using untracked, .inr (by simpa using gone)⟩

theorem reread_place {s s' : σ} (read : g.reread s p = some (new, s')) : new.place = g.place := by
  cases rereads_of_reread read <;> rfl

theorem refresh_place (g : FileGraph) (s : σ) (p : Path) :
    (g.refresh s p).2.graph.place = g.place := by
  unfold refresh
  cases read : g.reread s p with
  | none => rfl
  | some state =>
    obtain ⟨new, s'⟩ := state
    have kept : new.place = g.place := reread_place read
    exact kept

/-- A refresh comes to track no path but its own, and that one only if it is a source. -/
theorem refresh_tracks {q : Path} {s : σ} (h : q ∈ (g.refresh s p).2.graph.paths) :
    q ∈ g.paths ∨ q = p ∧ g.options.isSource p = true := by
  unfold refresh at h
  cases read : g.reread s p with
  | none =>
    rw [read] at h
    exact .inl h
  | some state =>
    obtain ⟨after, s'⟩ := state
    rw [read] at h
    rw [relink_paths] at h
    cases rereads_of_reread read with
    | changed =>
      rw [reparse_paths] at h
      exact .inl h
    | appeared _ untracked source =>
      rw [reparse_paths] at h
      obtain ⟨f, hf, rfl⟩ := List.mem_map.mp h
      rcases (mem_insert untracked).mp hf with rfl | hf
      · exact .inr ⟨rfl, source⟩
      · exact .inl (List.mem_map_of_mem hf)
    | vanished =>
      obtain ⟨f, hf, rfl⟩ := List.mem_map.mp h
      exact .inl (List.mem_map_of_mem (List.mem_filter.mp hf).1)

/-- A walk goes by the directories and by what they list. -/
theorem scanFrom_congr {τ : Type} [Storage τ] {s : σ} {t : τ} (same : new.place = g.place)
    (dirs : ∀ p, Storage.isDir t p = Storage.isDir s p)
    (listings : ∀ p, Storage.readDir t p = Storage.readDir s p) (steps : Nat) (stack : List Path) :
    new.scanFrom t steps stack = g.scanFrom s steps stack := by
  have root : new.root = g.root := (congrArg FileGraph.root same :)
  have options : new.options = g.options := (congrArg FileGraph.options same :)
  induction steps generalizing stack with
  | zero => rfl
  | succ steps ih =>
    cases stack with
    | nil => rfl
    | cons dir stack =>
      simp only [scanFrom, listings, sortEntries, root, options, dirs, ih]

theorem scan_congr {τ : Type} [Storage τ] {s : σ} {t : τ} (same : new.place = g.place)
    (dirs : ∀ p, Storage.isDir t p = Storage.isDir s p)
    (listings : ∀ p, Storage.readDir t p = Storage.readDir s p)
    (size : Storage.size t = Storage.size s) : new.scan t = g.scan s := by
  have root : new.root = g.root := (congrArg FileGraph.root same :)
  rw [scan, scan, root, size, scanFrom_congr same dirs listings]

/-- What holds of the sources that any directory lists holds of all that a walk finds. -/
theorem scanFrom_forall {s : σ} {P : Path → Prop}
    (own : ∀ entries, ∀ p ∈ (g.sortEntries s entries).2, P p) (steps : Nat) (stack : List Path)
    {found : List Path} (walked : g.scanFrom s steps stack = .ok found) : ∀ p ∈ found, P p := by
  induction steps generalizing stack found with
  | zero =>
    obtain rfl := Except.ok.inj walked
    nofun
  | succ steps ih =>
    cases stack with
    | nil =>
      obtain rfl := Except.ok.inj walked
      nofun
    | cons dir stack =>
      unfold scanFrom at walked
      cases listed : Storage.readDir s dir with
      | error e =>
        rw [listed] at walked
        cases walked
      | ok entries =>
        rw [listed] at walked
        simp only [bind, Except.bind] at walked
        split at walked
        next => cases walked
        next rest later =>
          obtain rfl := Except.ok.inj walked
          intro p hp
          rcases List.mem_append.mp hp with here_ | below
          · exact own entries p here_
          · exact ih _ later p below

theorem scan_forall {s : σ} {P : Path → Prop}
    (own : ∀ entries, ∀ p ∈ (g.sortEntries s entries).2, P p) {found : List Path}
    (scanned : g.scan s = .ok found) : ∀ p ∈ found, P p := by
  unfold scan at scanned
  cases walked : g.scanFrom s (Storage.size s) [g.root] with
  | error e =>
    rw [walked] at scanned
    cases scanned
  | ok paths =>
    rw [walked] at scanned
    obtain rfl := Except.ok.inj scanned
    intro p hp
    exact scanFrom_forall own _ _ walked p ((List.mergeSort_perm _ _).mem_iff.mp hp)

/-- What holds through every import that fails, and through every one that tracks another path,
holds through imports of many paths. -/
theorem importAll_preserves {M : FileGraph → σ → Prop} {l : List Path}
    (skipped : ∀ {g s s' p cause}, M g s → p ∈ l →
      modifiedTwice s (g.absolute p) = (.error cause, s') → M g s')
    (added : ∀ {g s s' p time}, M g s → p ∈ l → g.isTracked p = false →
      modifiedTwice s (g.absolute p) = (.ok time, s') →
      M (g.insert { path := p, modified := some time, artifact := g.artifactOnDisk s' p }) s')
    {s : σ} (h : M g s) (found : Found) :
    M (l.foldl importFile (g, s, found)).1 (l.foldl importFile (g, s, found)).2.1 := by
  induction l generalizing g s found with
  | nil => exact h
  | cons p rest ih =>
    have later {g : FileGraph} {s : σ} (h : M g s) (found : Found) :
        M (rest.foldl importFile (g, s, found)).1 (rest.foldl importFile (g, s, found)).2.1 :=
      ih (fun h hp => skipped h (List.mem_cons_of_mem _ hp))
        (fun h hp => added h (List.mem_cons_of_mem _ hp)) h found
    rw [List.foldl_cons]
    unfold importFile
    dsimp only
    split
    next => exact later h found
    next untracked =>
      split
      next read => exact later (added h List.mem_cons_self (by simpa using untracked) read) _
      next read => exact later (skipped h List.mem_cons_self read) _

theorem importAll_place (l : List Path) (g : FileGraph) (s : σ) (found : Found) :
    (l.foldl importFile (g, s, found)).1.place = g.place :=
  importAll_preserves (M := fun new _ => new.place = g.place) (fun h _ _ => h) (fun h _ _ _ => h)
    rfl found

theorem modifiedTwice_keeps {P : σ → Prop} (timed : ∀ s q, P s → P (Storage.modified s q).2)
    {s s' : σ} {result : Except IoError Nat} (h : P s) (read : modifiedTwice s p = (result, s')) :
    P s' := by
  have first := timed s p h
  obtain rfl : (modifiedTwice s p).2 = s' := congrArg Prod.snd read
  unfold modifiedTwice
  split
  next read => rwa [read] at first
  next read =>
    rw [read] at first
    exact timed _ p first

theorem artifactOnDisk_of_place (same : new.place = g.place) (s : σ) (p : Path) :
    new.artifactOnDisk s p = g.artifactOnDisk s p := by
  have options : new.options = g.options := (congrArg FileGraph.options same :)
  rw [artifactOnDisk, artifactOnDisk, artifactPath, artifactPath, options, absolute_of_place same]

/-- A record after an import was there before, or it is new: its path was found, and it tells no
more than the time of the file and its artifact, in a storage that only readings of times came
before. -/
theorem importAll_origin {P : σ → Prop} (timed : ∀ s q, P s → P (Storage.modified s q).2)
    (l : List Path) {s : σ} (h : P s) (found : Found) :
    ∀ f ∈ (l.foldl importFile (g, s, found)).1.files, f ∈ g.files ∨ f.path ∈ l ∧
      ∃ s₁ s₂ time, P s₁ ∧ modifiedTwice s₁ (g.absolute f.path) = (.ok time, s₂) ∧
        f = { path := f.path, modified := some time, artifact := g.artifactOnDisk s₂ f.path } := by
  have kept := importAll_preserves (l := l) (M := fun new s => new.place = g.place ∧ P s ∧
    ∀ f ∈ new.files, f ∈ g.files ∨ f.path ∈ l ∧
      ∃ s₁ s₂ time, P s₁ ∧ modifiedTwice s₁ (g.absolute f.path) = (.ok time, s₂) ∧
        f = { path := f.path, modified := some time, artifact := g.artifactOnDisk s₂ f.path })
    ?_ ?_ ⟨rfl, h, fun _ hf => .inl hf⟩ found
  · exact kept.2.2
  · rintro new s s' p cause ⟨place, h, known⟩ _ read
    exact ⟨place, modifiedTwice_keeps timed h read, known⟩
  · rintro new s s' p time ⟨place, h, known⟩ hp untracked read
    refine ⟨place, modifiedTwice_keeps timed h read, fun f hf => ?_⟩
    rcases (mem_insert untracked).mp hf with rfl | hf
    · rw [absolute_of_place place] at read
      exact .inr ⟨hp, s, s', time, h, read, by rw [artifactOnDisk_of_place place]⟩
    · exact known f hf

theorem importAll_tracks {q : Path} {l : List Path} {s : σ} {found : Found}
    (h : q ∈ (l.foldl importFile (g, s, found)).1.paths) : q ∈ g.paths ∨ q ∈ l := by
  obtain ⟨f, hf, rfl⟩ := List.mem_map.mp h
  have origin := importAll_origin (g := g) (P := fun _ : σ => True) (fun _ _ => id) l (s := s)
    trivial found f hf
  exact origin.imp List.mem_map_of_mem And.left

/-- A discovery imports what a scan finds. -/
theorem discover_ok {s : σ} {state : FileGraph × σ × Found} (h : g.discover s = .ok state) :
    ∃ paths, g.scan s = .ok paths ∧ paths.foldl importFile (g, s, {}) = state := by
  unfold discover at h
  cases scanned : g.scan s with
  | error e =>
    rw [scanned] at h
    cases h
  | ok paths =>
    rw [scanned] at h
    exact ⟨paths, rfl, Except.ok.inj h⟩

theorem discover_place {s s' : σ} {found : Found} (h : g.discover s = .ok (new, s', found)) :
    new.place = g.place := by
  obtain ⟨paths, -, state⟩ := discover_ok h
  have imported := importAll_place paths g s {}
  rwa [state] at imported

theorem rebuild_place (g : FileGraph) (s : σ) : (g.rebuild s).2.graph.place = g.place := by
  unfold rebuild
  dsimp only
  split
  next => rfl
  next discovered =>
    have found := discover_place discovered
    exact (reparseAll_place _ _ _).trans found

/-- A rebuild comes to track no path that its scan has not found. -/
theorem rebuild_tracks {q : Path} {s : σ} (h : q ∈ (g.rebuild s).2.graph.paths) :
    q ∈ g.paths ∨ ∃ found, (g.prune s).scan s = .ok found ∧ q ∈ found := by
  have kept (hq : q ∈ (g.prune s).paths) : q ∈ g.paths := by
    obtain ⟨f, hf, rfl⟩ := List.mem_map.mp hq
    exact List.mem_map_of_mem (List.mem_filter.mp hf).1
  unfold rebuild at h
  dsimp only at h
  split at h
  next => exact .inl (kept h)
  next after s' found discovered =>
    obtain ⟨paths, scanned, state⟩ := discover_ok discovered
    rw [relink_paths, reparseAll_paths] at h
    obtain rfl : (paths.foldl importFile (g.prune s, s, {})).1 = after := by rw [state]
    exact (importAll_tracks h).imp kept fun hq => ⟨paths, scanned, hq⟩

/-- A build is a rebuild of a graph without files. -/
theorem rebuild_of_build {root : Path} {options : GraphOptions} {s : σ} {reading : Reading σ}
    (built : build root options s = .ok reading) :
    (empty root options).rebuild s = (none, reading) := by
  unfold build at built
  split at built
  next => cases built
  next done =>
    cases built
    exact done

theorem build_of_rebuild {root : Path} {options : GraphOptions} {s : σ}
    (done : ((empty root options).rebuild s).1 = none) :
    build root options s = .ok ((empty root options).rebuild s).2 := by
  unfold build
  split
  next failed =>
    rw [failed] at done
    cases done
  next read => rw [read]

theorem reread_inPathOrder (h : InPathOrder g.files) {s s' : σ}
    (read : g.reread s p = some (new, s')) : InPathOrder new.files := by
  cases rereads_of_reread read with
  | changed => exact inPathOrder_congr h (g.reparse_paths s p)
  | appeared _ untracked =>
    have added : InPathOrder (g.insert { path := p }).files := insert_inPathOrder h untracked
    exact inPathOrder_congr added (reparse_paths _ s p)
  | vanished => exact h.filter _

theorem refresh_inPathOrder (h : InPathOrder g.files) (s : σ) (p : Path) :
    InPathOrder (g.refresh s p).2.graph.files := by
  unfold refresh
  cases read : g.reread s p with
  | none => exact h
  | some state => exact inPathOrder_congr (reread_inPathOrder h read) (relink_paths state.1)

theorem importAll_inPathOrder (l : List Path) (h : InPathOrder g.files) (s : σ) (found : Found) :
    InPathOrder (l.foldl importFile (g, s, found)).1.files :=
  importAll_preserves (M := fun new _ => InPathOrder new.files) (fun h _ _ => h)
    (fun h _ untracked _ => insert_inPathOrder h untracked) h found

theorem rebuild_inPathOrder (h : InPathOrder g.files) (s : σ) :
    InPathOrder (g.rebuild s).2.graph.files := by
  unfold rebuild
  dsimp only
  split
  next => exact h.filter _
  next found discovered =>
    obtain ⟨paths, -, state⟩ := discover_ok discovered
    have imported := importAll_inPathOrder paths (h.filter fun f =>
      Storage.isFile s (g.absolute f.path)) (g := g.prune s) s {}
    rw [state] at imported
    exact inPathOrder_congr imported
      ((relink_paths _).trans (reparseAll_paths _ _ _))

omit [Storage σ] in
theorem inPathOrder_of_linkage (h : InPathOrder g.files)
    (links : new.mapFiles SourceFile.linkage = g.mapFiles SourceFile.linkage) :
    InPathOrder new.files :=
  inPathOrder_congr h (paths_of_mapFiles links fun _ => rfl)

omit [Storage σ] in
theorem affected_isMaster {old : FileGraph} (h : InPathOrder new.files) {m : Path}
    (hm : m ∈ old.affected new p) : new.isMaster m = true := by
  obtain ⟨f, hf, rfl⟩ := List.mem_map.mp hm
  obtain ⟨known, both⟩ := List.mem_filter.mp hf
  rw [isMaster, file_of_mem h known]
  simp only [Bool.and_eq_true] at both
  exact both.1

/-- A refresh reports masters. -/
theorem refresh_isMaster (h : InPathOrder g.files) (s : σ) {m : Path}
    (hm : m ∈ (g.refresh s p).1) : (g.refresh s p).2.graph.isMaster m = true := by
  have order := refresh_inPathOrder h s p
  unfold refresh at hm order ⊢
  cases read : g.reread s p with
  | none =>
    rw [read] at hm
    cases hm
  | some state =>
    rw [read] at hm order
    exact affected_isMaster order hm

end StoryBuild.FileGraph
