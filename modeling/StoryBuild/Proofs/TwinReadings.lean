import Mathlib.Data.List.Induction
import StoryBuild.Proofs.FailedRebuild
import StoryBuild.Proofs.TwinGraphs

namespace StoryBuild

/-- Two lists that are equal but for members that are to be skipped. -/
inductive EqualBesides {α : Type} (skip : α → Prop) : List α → List α → Prop where
  | nil : EqualBesides skip [] []
  | both {a : α} {l l' : List α} (kept : ¬ skip a) (rest : EqualBesides skip l l') :
      EqualBesides skip (a :: l) (a :: l')
  | left {a : α} {l l' : List α} (skipped : skip a) (rest : EqualBesides skip l l') :
      EqualBesides skip (a :: l) l'
  | right {a : α} {l l' : List α} (skipped : skip a) (rest : EqualBesides skip l l') :
      EqualBesides skip l (a :: l')

theorem EqualBesides.of_filter {α : Type} {skip : α → Prop} [DecidablePred skip] {l l' : List α}
    (same : l.filter (fun a => ¬ skip a) = l'.filter fun a => ¬ skip a) :
    EqualBesides skip l l' := by
  induction l generalizing l' with
  | nil =>
    induction l' with
    | nil => exact .nil
    | cons b rest ih =>
      by_cases skipped : skip b
      · exact .right skipped (ih (by simpa [skipped] using same))
      · simp [skipped] at same
  | cons a l ih =>
    by_cases skipped : skip a
    · exact .left skipped (ih (by simpa [skipped] using same))
    · induction l' with
      | nil => simp [skipped] at same
      | cons b l' ih' =>
        by_cases skipped' : skip b
        · exact .right skipped' (ih' (by simpa [skipped, skipped'] using same))
        · obtain ⟨rfl, rest⟩ : a = b ∧ _ := by simpa [skipped, skipped'] using same
          exact .both skipped (ih (by simpa using rest))

open MemoryDisk (Firm)

namespace FileGraph

variable {κ : Type} {g g' : FileGraph} {s t : Trial κ} {times : Nat → Nat} {p : Path}
  {place : List Part}

section Walk

variable {d₁ d₂ : MemoryDisk}

theorem scan_disk (same : g'.place = g.place) (s : Trial κ) : g'.scan s = g.scan s.disk :=
  scan_congr same (fun _ => rfl) (fun _ => rfl) rfl

theorem scan_no_root (missing : Storage.isDir d₁ g.root = false) :
    g.scan d₁ = .error (.notListable g.root) := by
  change (g.scanFrom d₁ (d₁.entries.length + 1) [g.root]).map _ = _
  rw [scanFrom, MemoryDisk.readDir_error missing]
  rfl

variable (h : d₁.Twins times g.root.parts place d₂)

include h

/-- What directories lead to on the second disk they lead to on the first one, if it is there. -/
theorem ledTo_twins {names : List String} (led : LedTo g.root.parts d₂.entries names)
    (other : below g.root.parts names ≠ place)
    (there : standsAt d₁.entries (below g.root.parts names) ≠ none) :
    LedTo g.root.parts d₁.entries names := by
  induction names using List.reverseRecOn with
  | nil =>
    intro front x within
    have empty := List.prefix_nil.mp within
    simp at empty
  | append_singleton ns x ih =>
    have listed := led ns x (List.prefix_refl _)
    rw [below_concat] at other there
    have listed₁ := (h.apart.way _ x not_false listed).resolve_right fun leads =>
      leads.elim other fun missing => there missing.2
    have dir := listed₁.dirAt
    refine LedTo.snoc (ih (fun front y within => led front y ?_) ?_ ?_) listed₁
    · exact within.trans (List.prefix_append _ _)
    · intro same
      exact h.apart.no_dir₁ (same ▸ dir)
    · obtain ⟨names, found⟩ := dir
      rw [found]
      simp

theorem isListed_twins (other : (g.absolute p).parts ≠ place) :
    g.IsListed d₂ p ↔ g.IsListed d₁ p := by
  have same : g.HasSource d₂ p ↔ g.HasSource d₁ p := by rw [HasSource, HasSource, h.isFile other]
  rw [IsListed, IsListed, same]
  refine and_congr_right fun source => ?_
  constructor
  · rintro ⟨names, rfl, valid, led⟩
    have absolute : (g.absolute (.ofNames names)).parts = below g.root.parts names :=
      Path.join_parts g.root valid
    have file := source.2.1
    rw [MemoryDisk.isFile_eq, absolute] at file
    refine ⟨names, rfl, valid, ledTo_twins h led (absolute ▸ other) fun missing => ?_⟩
    rw [contentAt, missing] at file
    cases file
  · rintro ⟨names, rfl, valid, led⟩
    exact ⟨names, rfl, valid, fun front x within => h.apart.lists _ x (led front x within)⟩

end Walk

/-- Two scans fail alike, or find the same files but at the place. -/
theorem Alike.scanned (h : Alike times place g g' s t) :
    (∃ cause, g.scan s = .error cause ∧ g'.scan t = .error cause) ∨
      ∃ l l', g.scan s = .ok l ∧ g'.scan t = .ok l' ∧
        EqualBesides (fun p => (g.absolute p).parts = place) l l' := by
  rw [scan_disk rfl s, scan_disk h.same_place t]
  have disks := h.sites.disks
  have same := disks.isDir_firm h.rooted
  cases root : Storage.isDir s.disk g.root with
  | false =>
    exact .inl ⟨_, scan_no_root root, scan_no_root (same.trans root)⟩
  | true =>
    obtain ⟨l, scanned, once, mem⟩ := scan_lists disks.names₁ root
    obtain ⟨l', scanned', once', mem'⟩ := scan_lists disks.names₂ (same.trans root)
    refine .inr ⟨_, _, scanned, scanned', .of_filter ?_⟩
    have strict {l : List Path} {d : MemoryDisk} (once : l.Nodup)
        (mem : ∀ p, p ∈ l ↔ g.IsListed d p) :
        ((sortPaths l).filter fun p => ¬ (g.absolute p).parts = place).Pairwise
          fun p q => p.before q = true := by
      refine (sortPaths_strict (once.imp_of_mem fun hp hq other same => ?_)).filter _
      exact other (((mem _).mp hp).1.1.ext ((mem _).mp hq).1.1 same)
    refine sorted_ext (strict once mem) (strict once' mem') fun p => ?_
    rw [List.mem_filter, List.mem_filter, (List.mergeSort_perm l _).mem_iff,
      (List.mergeSort_perm l' _).mem_iff, mem, mem']
    refine and_congr_left fun other => ?_
    exact (isListed_twins disks (by simpa using other)).symm

/-- What is tracked stays so while others are imported. -/
theorem importAll_mem {σ : Type} [Storage σ] (l : List Path) {s : σ} {found : Found}
    {f : SourceFile} (hf : f ∈ g.files) : f ∈ (l.foldl importFile (g, s, found)).1.files :=
  importAll_preserves (M := fun new _ => f ∈ new.files) (fun hf _ _ => hf)
    (fun hf _ untracked _ => (mem_insert untracked).mpr (.inr hf)) hf found

/-- A path that comes to be tracked keeps off the place if the graph does in the end. -/
theorem keepsOff_of_tracked {place : List Part} (off : g.PathsKeepOff place)
    (tracked : g.isTracked p = true) : (g.absolute p).parts ≠ place ∧
      ¬ place <+: (g.absolute (g.artifactPath p)).parts := by
  obtain ⟨f, hf, same⟩ := isTracked_iff.mp tracked
  obtain ⟨source, artifact⟩ := off f.path (List.mem_map_of_mem hf)
  rw [g.absolute_congr same] at source
  rw [g.artifact_congr same] at artifact
  exact ⟨source, artifact⟩

theorem isTracked_insert (f : SourceFile) (untracked : ¬ g.isTracked f.path = true) :
    (g.insert f).isTracked f.path = true :=
  isTracked_iff.mpr ⟨f, (mem_insert (by simpa using untracked)).mpr (.inl rfl), rfl⟩

theorem isTracked_mono (kept : ∀ f ∈ g.files, f ∈ g'.files) (tracked : g.isTracked p = true) :
    g'.isTracked p = true := by
  obtain ⟨f, hf, same⟩ := isTracked_iff.mp tracked
  exact isTracked_iff.mpr ⟨f, kept f hf, same⟩

section Import

variable {found found' : Found}

theorem Alike.inserted (h : Alike times place g g' s t) {f : SourceFile}
    (untracked : ¬ g.isTracked f.path = true)
    (past : ∀ time, f.modified = some time → time ≤ s.disk.clock)
    (firm : Firm place s.disk (g.absolute f.path).parts) :
    Alike times place (g.insert f) (g'.insert (f.retimed times)) s t := by
  refine ⟨by rw [h.graphs, retimed_insert], h.sites, fun k hk => ?_, h.rooted, fun k hk => ?_⟩
  all_goals rcases (mem_insert (by simpa using untracked)).mp hk with rfl | old
  · exact past
  · exact h.recorded k old
  · exact firm
  · exact h.firm k old

/-- A file that is found away from the place is tracked in both graphs or skipped in both. -/
theorem Alike.imported (h : Alike times place g g' s t) (other : (g.absolute p).parts ≠ place)
    (off : (importFile (g, s, found) p).1.isTracked p = true →
      ¬ place <+: (g.absolute (g.artifactPath p)).parts) :
    Alike times place (importFile (g, s, found) p).1 (importFile (g', t, found') p).1
      (importFile (g, s, found) p).2.1 (importFile (g', t, found') p).2.1 := by
  unfold importFile at off ⊢
  dsimp only at off ⊢
  rw [h.isTracked_eq, h.absolute_eq]
  split
  next => exact h
  next untracked =>
    rw [if_neg untracked] at off
    have read := h.modifiedTwice other
    generalize FileGraph.modifiedTwice s (g.absolute p) = r,
      FileGraph.modifiedTwice t (g.absolute p) = r' at off read
    cases read with
    | unknown _ _ alike => exact alike
    | @known s t time alike past there =>
      have apart : (g.absolute (g.artifactPath p)).parts ≠ place := fun same =>
        off (isTracked_insert _ untracked) (same ▸ List.prefix_refl _)
      have produced : g'.artifactOnDisk t p = g.artifactOnDisk s p := by
        have options : g'.options = g.options := (congrArg FileGraph.options alike.same_place :)
        unfold artifactOnDisk
        dsimp only
        rw [artifact_of_place alike.same_place, alike.isFile apart, artifactPath, artifactPath,
          options]
      dsimp only
      rw [produced]
      refine alike.inserted (f := { path := p, modified := some time, artifact := _ }) untracked
        ?_ ⟨other, fun _ => there⟩
      intro _ same
      cases same
      exact past

/-- What is found at the place is not tracked; it is tried to read its time. -/
theorem Alike.imported_left (h : Alike times place g g' s t)
    (here_ : (g.absolute p).parts = place)
    (off : ¬ (importFile (g, s, found) p).1.isTracked p = true) :
    Alike times place (importFile (g, s, found) p).1 g' (importFile (g, s, found) p).2.1 t := by
  unfold importFile at off ⊢
  dsimp only at off ⊢
  split
  next => exact h
  next untracked =>
    rw [if_neg untracked] at off
    have read := h.modifiedTwice_left here_
    generalize FileGraph.modifiedTwice s (g.absolute p) = r at off read
    obtain ⟨_ | _, s⟩ := r
    · exact read
    · exact absurd (isTracked_insert _ untracked) off

theorem Alike.imported_right (h : Alike times place g g' s t)
    (here_ : (g'.absolute p).parts = place)
    (off : ¬ (importFile (g', t, found') p).1.isTracked p = true) :
    Alike times place g (importFile (g', t, found') p).1 s (importFile (g', t, found') p).2.1 := by
  unfold importFile at off ⊢
  dsimp only at off ⊢
  split
  next => exact h
  next untracked =>
    rw [if_neg untracked] at off
    have read := h.modifiedTwice_right here_
    generalize FileGraph.modifiedTwice t (g'.absolute p) = r at off read
    obtain ⟨_ | _, t⟩ := r
    · exact read
    · exact absurd (isTracked_insert _ untracked) off

theorem keepsOff_of_imported {σ : Type} [Storage σ] {s : σ} (l : List Path)
    (off : ((p :: l).foldl importFile (g, s, found)).1.PathsKeepOff place)
    (tracked : (importFile (g, s, found) p).1.isTracked p = true) :
    (g.absolute p).parts ≠ place ∧ ¬ place <+: (g.absolute (g.artifactPath p)).parts := by
  have same := importAll_place (p :: l) g s found
  rw [← absolute_of_place same, ← artifact_of_place same]
  exact keepsOff_of_tracked off (isTracked_mono (fun _ => importAll_mem l) tracked)

/-- Two imports of what two scans have found. -/
theorem Alike.importedAll {root : Path} {l l' : List Path}
    (besides : EqualBesides (fun p => (root.join p).parts = place) l l')
    (h : Alike times place g g' s t) (own : g.root = root)
    (off : (l.foldl importFile (g, s, found)).1.PathsKeepOff place)
    (off' : (l'.foldl importFile (g', t, found')).1.PathsKeepOff place) :
    Alike times place (l.foldl importFile (g, s, found)).1
      (l'.foldl importFile (g', t, found')).1
      (l.foldl importFile (g, s, found)).2.1
      (l'.foldl importFile (g', t, found')).2.1 := by
  induction besides generalizing g g' s t found found' with
  | nil => exact h
  | @both p l l' kept rest ih =>
    have same := importAll_place [p] g s found
    refine ih (h.imported (by rwa [absolute, own]) fun tracked => ?_)
      ((congrArg FileGraph.root same :).trans own) off off'
    exact (keepsOff_of_imported l off tracked).2
  | @left p l l' skipped rest ih =>
    have same := importAll_place [p] g s found
    have here_ : (g.absolute p).parts = place := by rwa [absolute, own]
    refine ih (h.imported_left here_ fun tracked => ?_)
      ((congrArg FileGraph.root same :).trans own) off off'
    exact (keepsOff_of_imported l off tracked).1 here_
  | @right p l l' skipped rest ih =>
    have here_ : (g'.absolute p).parts = place := by rwa [h.absolute_eq, absolute, own]
    refine ih (h.imported_right here_ fun tracked => ?_) own off off'
    exact (keepsOff_of_imported l' off' tracked).1 here_

end Import

theorem Alike.pruned (h : Alike times place g g' s t) (off : g.PathsKeepOff place) :
    Alike times place (g.prune s) (g'.prune t) s t := by
  have kept (f : SourceFile) (hf : f ∈ g.files) :
      Storage.isFile t (g'.absolute f.path) = Storage.isFile s (g.absolute f.path) := by
    rw [h.absolute_eq]
    exact h.isFile (off f.path (List.mem_map_of_mem hf)).1
  refine ⟨?_, h.sites, fun f hf => h.recorded f (List.mem_filter.mp hf).1, h.rooted,
    fun f hf => h.firm f (List.mem_filter.mp hf).1⟩
  have files : g'.files = g.files.map (SourceFile.retimed times) := by
    rw [h.graphs]
    rfl
  have pruned : (g'.prune t).files = (g.prune s).files.map (SourceFile.retimed times) := by
    rw [prune, files, List.filter_map]
    exact congrArg _ (List.filter_congr fun f hf => kept f hf)
  change { g' with files := (g'.prune t).files } = _
  rw [pruned, h.graphs]
  rfl

theorem Alike.reparsed (h : Alike times place g g' s t) (other : (g.absolute p).parts ≠ place) :
    Alike times place (g.reparse s p).1 (g'.reparse t p).1 (g.reparse s p).2
      (g'.reparse t p).2 := by
  have texts : (g'.readIncludes t p).toOption = (g.readIncludes s p).toOption := by
    have same := h.sites.disks.readText other
    have read {r r' : Except IoError String} (same : r'.toOption = r.toOption) :
        (r'.map includesOf).toOption = (r.map includesOf).toOption := by
      cases r <;> cases r' <;> cases same <;> rfl
    rw [readIncludes, h.absolute_eq]
    exact read same
  have read := h.modified other
  unfold reparse
  dsimp only
  rw [texts, h.absolute_eq]
  generalize Storage.modified s (g.absolute p) = r, Storage.modified t (g.absolute p) = r' at read
  cases read with
  | known alike past there =>
    refine alike.update p (fun f => rfl) (fun _ => rfl) fun f time same => .inr ?_
    cases same
    exact past
  | unknown _ _ alike =>
    exact alike.update p (fun f => rfl) (fun _ => rfl) fun f time same => .inl same

theorem Alike.reparsedAll (h : Alike times place g g' s t) {l : List Path}
    (off : ∀ p ∈ l, (g.absolute p).parts ≠ place) :
    Alike times place (g.reparseAll s l).1 (g'.reparseAll t l).1 (g.reparseAll s l).2
      (g'.reparseAll t l).2 := by
  unfold reparseAll
  induction l generalizing g g' s t with
  | nil => exact h
  | cons p rest ih =>
    exact ih (h.reparsed (off p List.mem_cons_self)) fun q hq => off q (List.mem_cons_of_mem _ hq)

theorem relink_reparseAll_paths {σ : Type} [Storage σ] (g : FileGraph) (s : σ) (l : List Path) :
    (g.reparseAll s l).1.relink.paths = g.paths := by
  rw [relink_paths, reparseAll_paths]

theorem dated_relink (g : FileGraph) :
    g.relink.mapFiles SourceFile.dated = g.mapFiles SourceFile.dated := by
  have own : g.relink.mapFiles SourceFile.own = g.mapFiles SourceFile.own := own_relink g
  have dated (h : FileGraph) :
      (h.mapFiles SourceFile.own).mapFiles SourceFile.dated = h.mapFiles SourceFile.dated :=
    mapFiles_mapFiles h _ _
  rw [← dated, own, dated]

theorem Alike.relinked (h : Alike times place g g' s t) :
    Alike times place g.relink g'.relink s t :=
  h.regraph (by rw [h.graphs, retimed_relink]) (dated_relink g)

/-- Two rebuilds fail alike or lead to graphs that are alike, if these keep off the place. -/
theorem Alike.rebuilt (h : Alike times place g g' s t) (off : g.PathsKeepOff place)
    (after : (g.rebuild s).2.graph.PathsKeepOff place)
    (after' : (g'.rebuild t).2.graph.PathsKeepOff place) :
    (g'.rebuild t).1 = (g.rebuild s).1 ∧
      Alike times place (g.rebuild s).2.graph (g'.rebuild t).2.graph (g.rebuild s).2.storage
        (g'.rebuild t).2.storage := by
  have pruned := h.pruned off
  rcases pruned.scanned with ⟨cause, failed, failed'⟩ | ⟨l, l', scanned, scanned', besides⟩
  · have discovered : (g.prune s).discover s = .error cause := by
      rw [discover, failed]
      rfl
    have discovered' : (g'.prune t).discover t = .error cause := by
      rw [discover, failed']
      rfl
    unfold rebuild
    dsimp only
    rw [discovered, discovered']
    exact ⟨rfl, pruned⟩
  · have discovered : (g.prune s).discover s =
        .ok (l.foldl importFile (g.prune s, s, {})) := by
      rw [discover, scanned]
      rfl
    have discovered' : (g'.prune t).discover t =
        .ok (l'.foldl importFile (g'.prune t, t, {})) := by
      rw [discover, scanned']
      rfl
    obtain ⟨done, graph, storage⟩ := rebuild_of_discover discovered
    obtain ⟨done', graph', storage'⟩ := rebuild_of_discover discovered'
    rw [done, done', graph, graph', storage, storage']
    rw [graph] at after
    rw [graph'] at after'
    have kept := after.congr (relink_reparseAll_paths _ _ _) (reparseAll_place _ _ _).symm
    have kept' := after'.congr (relink_reparseAll_paths _ _ _) (reparseAll_place _ _ _).symm
    have imported := pruned.importedAll besides rfl kept kept'
    refine ⟨rfl, ?_⟩
    rw [imported.paths_eq]
    exact (imported.reparsedAll fun p hp => (kept p hp).1).relinked

theorem Alike.erased (h : Alike times place g g' s t) (p : Path) :
    Alike times place (g.erase p) (g'.erase p) s t := by
  refine ⟨?_, h.sites, fun f hf => h.recorded f (List.mem_filter.mp hf).1, h.rooted,
    fun f hf => h.firm f (List.mem_filter.mp hf).1⟩
  rw [h.graphs, erase, erase, retimed, retimed, mapFiles, mapFiles, List.filter_map]
  rfl

/-- A path at the place is not read again by a graph that keeps off the place before and after. -/
theorem reread_at_place {σ : Type} [Storage σ] {s : σ} (here_ : (g.absolute p).parts = place)
    (off : g.PathsKeepOff place) (after : (g.refresh s p).2.graph.PathsKeepOff place) :
    g.reread s p = none := by
  have untracked : ¬ g.isTracked p = true :=
    fun tracked => (keepsOff_of_tracked off tracked).1 here_
  unfold reread
  rw [if_neg untracked]
  split
  next file =>
    split
    next source =>
      refine absurd here_ ?_
      have read : g.reread s p = some ((g.insert { path := p }).reparse s p) := by
        rw [reread, if_pos file, if_neg untracked, if_pos source]
      unfold refresh at after
      rw [read] at after
      have inserted : (g.insert { path := p }).PathsKeepOff place :=
        PathsKeepOff.congr after ((relink_paths _).trans (reparse_paths _ _ _)) rfl
      exact (keepsOff_of_tracked inserted (isTracked_insert _ untracked)).1
    next => rfl
  next => rfl

/-- Reading a path away from the place again. -/
theorem Alike.rereads (h : Alike times place g g' s t) (other : (g.absolute p).parts ≠ place) :
    (g.reread s p = none ∧ g'.reread t p = none) ∨ ∃ r r', g.reread s p = some r ∧
      g'.reread t p = some r' ∧ Alike times place r.1 r'.1 r.2 r'.2 := by
  have options : g'.options = g.options := (congrArg FileGraph.options h.same_place :)
  unfold reread
  rw [h.absolute_eq, h.isFile other, h.isTracked_eq, options]
  split
  next file =>
    have there : standsAt s.disk.entries (g.absolute p).parts ≠ none := by
      change Storage.isFile s.disk _ = true at file
      rw [MemoryDisk.isFile_eq] at file
      intro missing
      rw [contentAt, missing] at file
      cases file
    split
    next => exact .inr ⟨_, _, rfl, rfl, h.reparsed other⟩
    next untracked =>
      split
      next =>
        have inserted : Alike times place (g.insert { path := p }) (g'.insert { path := p }) s t :=
          h.inserted (f := { path := p }) untracked (by simp) ⟨other, fun _ => there⟩
        exact .inr ⟨_, _, rfl, rfl, inserted.reparsed other⟩
      next => exact .inl ⟨rfl, rfl⟩
  next =>
    split
    next => exact .inr ⟨_, _, rfl, rfl, h.erased p⟩
    next => exact .inl ⟨rfl, rfl⟩

/-- Two refreshes report the same masters and lead to graphs that are alike, if these keep off the
place. -/
theorem Alike.refreshed (h : Alike times place g g' s t) (off : g.PathsKeepOff place)
    (after : (g.refresh s p).2.graph.PathsKeepOff place)
    (after' : (g'.refresh t p).2.graph.PathsKeepOff place) :
    (g'.refresh t p).1 = (g.refresh s p).1 ∧
      Alike times place (g.refresh s p).2.graph (g'.refresh t p).2.graph (g.refresh s p).2.storage
        (g'.refresh t p).2.storage := by
  have read : (g.reread s p = none ∧ g'.reread t p = none) ∨ ∃ r r', g.reread s p = some r ∧
      g'.reread t p = some r' ∧ Alike times place r.1 r'.1 r.2 r'.2 := by
    by_cases here_ : (g.absolute p).parts = place
    · have off' : g'.PathsKeepOff place := off.congr h.paths_eq.symm h.same_place
      refine .inl ⟨reread_at_place here_ off after, reread_at_place ?_ off' after'⟩
      rwa [h.absolute_eq]
    · exact h.rereads here_
  unfold refresh
  rcases read with ⟨none_, none_'⟩ | ⟨⟨new, s'⟩, ⟨new', t'⟩, some_, some_', alike⟩
  · rw [none_, none_']
    exact ⟨rfl, h⟩
  · rw [some_, some_']
    dsimp only at alike ⊢
    refine ⟨?_, alike.relinked⟩
    rw [h.graphs, alike.graphs, retimed_relink, retimed_affected]

end FileGraph

end StoryBuild
