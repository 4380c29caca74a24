import Mathlib.Data.List.Forall2
import StoryBuild.MemoryDisk
import StoryBuild.Proofs.Families
import StoryBuild.Proofs.ProjectPaths

namespace StoryBuild

namespace SourceFile

/-- Whether an include, written in a file, names a path. -/
def Names (f : SourceFile) (raw : String) (p : Path) : Prop :=
  ∃ t, f.path.dirOf.resolveInclude raw = some t ∧ t.parts = p.parts

/-- Whether some include of a file names a path, be it tracked or not. -/
def Mentions (f : SourceFile) (p : Path) : Prop :=
  ∃ raw ∈ f.rawIncludes, f.Names raw p

/-- Whether a file has an include edge to a path. -/
def Includes (f : SourceFile) (p : Path) : Prop :=
  ∃ t ∈ f.includes, t.parts = p.parts

/-- Whether an include, written in a file, is one of its edges. -/
def counts (f : SourceFile) (raw : String) : Bool :=
  (f.path.dirOf.resolveInclude raw).any fun t => f.includes.any (· == t)

end SourceFile

namespace FileGraph

variable {g : FileGraph} {f k : SourceFile} {p t : Path} {raw : String} {issue : Issue}

/-- A graph as a build, a rebuild that succeeds, or a refresh that finds something has left it. -/
inductive JustRead : FileGraph → Prop
  | built {σ : Type} [Storage σ] {s : σ} {root : Path} {options : GraphOptions}
      {reading : Reading σ} (done : build root options s = .ok reading) : JustRead reading.graph
  | rebuilt {σ : Type} [Storage σ] {s : σ} {g : FileGraph} (order : InPathOrder g.files)
      (done : (g.rebuild s).1 = none) : JustRead (g.rebuild s).2.graph
  | refreshed {σ : Type} [Storage σ] {s : σ} {g : FileGraph} {p : Path}
      (order : InPathOrder g.files) (changed : (g.reread s p).isSome = true) :
      JustRead (g.refresh s p).2.graph

theorem rebuild_linked {σ : Type} [Storage σ] {s : σ} (done : (g.rebuild s).1 = none) :
    (g.rebuild s).2.graph.Linked := by
  unfold rebuild at done ⊢
  dsimp only at done ⊢
  split
  next failed =>
    rw [failed] at done
    cases done
  next => exact linked_relink _

theorem refresh_linked_of_changed {σ : Type} [Storage σ] {s : σ}
    (changed : (g.reread s p).isSome = true) : (g.refresh s p).2.graph.Linked := by
  obtain ⟨state, read⟩ := Option.isSome_iff_exists.mp changed
  rw [refresh, read]
  exact linked_relink state.1

theorem JustRead.linked (h : g.JustRead) : InPathOrder g.files ∧ g.Linked := by
  cases h with
  | @built σ _ s root options reading done =>
    have succeeds := rebuild_of_build done
    have linked := rebuild_linked (g := empty root options) (s := s) (by rw [succeeds])
    have order := rebuild_inPathOrder (g := empty root options) .nil s
    rw [succeeds] at linked order
    exact ⟨order, linked⟩
  | rebuilt order done => exact ⟨rebuild_inPathOrder order _, rebuild_linked done⟩
  | refreshed order changed =>
    exact ⟨refresh_inPathOrder order _ _, refresh_linked_of_changed changed⟩

/-- Why an include of a file does not count, with the issue that it leaves. -/
inductive Faults (g : FileGraph) (f : SourceFile) : String → Issue → Prop
  | outside {raw : String} (lost : f.path.dirOf.resolveInclude raw = none) :
      Faults g f raw (.outside raw)
  | ownInclude {raw : String} (own : f.Names raw f.path) : Faults g f raw (.ownInclude raw)
  | missing {raw : String} {t : Path} (named : f.path.dirOf.resolveInclude raw = some t)
      (other : t.parts ≠ f.path.parts) (untracked : ∀ k ∈ g.files, k.path.parts ≠ t.parts) :
      Faults g f raw (.missing raw)
  | circular {raw : String} {t : Path} {k : SourceFile}
      (named : f.path.dirOf.resolveInclude raw = some t) (other : t.parts ≠ f.path.parts)
      (tracked : k ∈ g.files) (path : k.path.parts = t.parts) (back : k.Mentions f.path) :
      Faults g f raw (.circular t)

/-- The includes of a tracked file name the source exactly if they do so where the file lies. -/
theorem rawTargets_any (order : InPathOrder g.files) (hk : k ∈ g.files)
    (path : k.path.parts = t.parts) (p : Path) :
    (g.rawTargets t).any (· == p) = true ↔ k.Mentions p := by
  have found : g.file? t = some k := (file_congr_parts path).symm.trans (file_of_mem order hk)
  have dir (raw : String) : t.dirOf.resolveInclude raw = k.path.dirOf.resolveInclude raw :=
    Path.resolveInclude_congr (Path.dirOf_congr path.symm) raw
  rw [rawTargets, found, List.any_eq_true]
  constructor
  · rintro ⟨x, hx, same⟩
    obtain ⟨raw, hraw, named⟩ := List.mem_filterMap.mp hx
    exact ⟨raw, hraw, x, dir raw ▸ named, Path.beq_iff.mp same⟩
  · rintro ⟨raw, hraw, x, named, same⟩
    exact ⟨x, List.mem_filterMap.mpr ⟨raw, hraw, (dir raw).trans named⟩, Path.beq_iff.mpr same⟩

/-- Whether an include of a file names another tracked file that does not name this one. -/
def Resolves (g : FileGraph) (f : SourceFile) (raw : String) (t : Path) : Prop :=
  f.path.dirOf.resolveInclude raw = some t ∧ t.parts ≠ f.path.parts ∧
    ∃ k ∈ g.files, k.path.parts = t.parts ∧ ¬ k.Mentions f.path

/-- An include comes to an edge, or to an issue that says why not. -/
theorem resolveRaw_spec (order : InPathOrder g.files) (f : SourceFile) (raw : String) :
    match g.resolveRaw f.path raw with
    | .ok t => g.Resolves f raw t
    | .error issue => g.Faults f raw issue := by
  unfold resolveRaw
  cases named : f.path.dirOf.resolveInclude raw with
  | none => exact .outside named
  | some t =>
    dsimp only
    by_cases own : (t == f.path) = true
    · rw [if_pos own]
      exact .ownInclude ⟨t, named, Path.beq_iff.mp own⟩
    · have other : t.parts ≠ f.path.parts := fun same => own (Path.beq_iff.mpr same)
      rw [if_neg own]
      cases tracked : g.isTracked t with
      | false =>
        exact .missing named other (not_tracked tracked)
      | true =>
        obtain ⟨k, hk, path⟩ := isTracked_iff.mp tracked
        have back := rawTargets_any order hk path f.path
        rw [if_neg (by simp)]
        by_cases circular : (g.rawTargets t).any (· == f.path) = true
        · rw [if_pos circular]
          exact .circular named other hk path (back.mp circular)
        · rw [if_neg circular]
          exact ⟨named, other, k, hk, path, fun h => circular (back.mpr h)⟩

theorem Resolves.not_faults (order : InPathOrder g.files) (h : g.Resolves f raw t) :
    ¬ g.Faults f raw issue := by
  obtain ⟨named, other, k, hk, path, one_way⟩ := h
  intro fault
  cases fault with
  | outside lost => cases lost.symm.trans named
  | ownInclude own =>
    obtain ⟨t', named', same⟩ := own
    obtain rfl := Option.some.inj (named.symm.trans named')
    exact other same
  | missing named' _ untracked =>
    obtain rfl := Option.some.inj (named.symm.trans named')
    exact untracked k hk path
  | circular named' _ tracked path' back =>
    obtain rfl := Option.some.inj (named.symm.trans named')
    obtain rfl := order.unique hk tracked (path.trans path'.symm)
    exact one_way back

theorem resolveRaw_ok (order : InPathOrder g.files) :
    g.resolveRaw f.path raw = .ok t ↔ g.Resolves f raw t := by
  have spec := g.resolveRaw_spec order f raw
  constructor
  · intro found
    rwa [found] at spec
  · intro resolves
    cases found : g.resolveRaw f.path raw with
    | error issue =>
      rw [found] at spec
      exact absurd spec (resolves.not_faults order)
    | ok t' =>
      rw [found] at spec
      rw [Option.some.inj (spec.1.symm.trans resolves.1)]

theorem addNew_pairwise {l paths : List Path}
    (apart : paths.Pairwise fun p q => p.parts ≠ q.parts) :
    (l.foldl addNew paths).Pairwise fun p q => p.parts ≠ q.parts := by
  induction l generalizing paths with
  | nil => exact apart
  | cons x rest ih =>
    refine ih ?_
    unfold addNew
    split
    next => exact apart
    next new =>
      refine List.pairwise_append.mpr ⟨apart, List.pairwise_singleton _ _, ?_⟩
      intro p hp q hq same
      rw [List.mem_singleton.mp hq] at same
      exact new (List.any_eq_true.mpr ⟨p, hp, Path.beq_iff.mpr same⟩)

theorem Linked.includes_iff (h : g.Linked) (order : InPathOrder g.files) (hf : f ∈ g.files) :
    f.Includes p ↔ ∃ raw ∈ f.rawIncludes, ∃ t, g.Resolves f raw t ∧ t.parts = p.parts := by
  rw [SourceFile.Includes, (h.records hf).1, mem_edgesOf]
  simp only [resolveRaw_ok order]

theorem issuesOf_isLocal (order : InPathOrder g.files) (h : issue ∈ g.issuesOf f) :
    issue.isLocal = true := by
  obtain ⟨raw, _, left⟩ := List.mem_filterMap.mp h
  have spec := g.resolveRaw_spec order f raw
  cases found : g.resolveRaw f.path raw with
  | ok t =>
    rw [found] at left
    cases left
  | error issue' =>
    rw [found] at left spec
    obtain rfl := Option.some.inj left
    cases spec <;> rfl

/-- The issues of a linked record are those of its includes and those of its owners. -/
theorem Linked.issues (h : g.Linked) (order : InPathOrder g.files) (hf : f ∈ g.files) :
    f.issues = g.issuesOf f ++ g.ownershipIssues f := by
  let said (f : SourceFile) : SourceFile := { f with issues := g.issuesOf f }
  have path (f : SourceFile) : (said f).path = f.path := rfl
  have includes (f : SourceFile) : (said f).includes = f.includes := rfl
  have resolved : g.resolveAll = g.mapFiles said :=
    mapFiles_congr fun k hk => by simp only [FileGraph.resolved, said, ← (h.records hk).1]
  have parents : g.resolveAll.withParents = g.mapFiles said := by
    rw [withParents, resolved, mapFiles_mapFiles]
    refine mapFiles_congr fun k hk => ?_
    rw [parentsOf_mapFiles g path includes]
    simp only [said, ← (h.records hk).2.1]
  have issues : f.issues = ((g.mapFiles said).owned (said f)).issues := by
    have whole := h
    rw [Linked, ← linkage_relink, relink, rebuildOwnership, parents, mapFiles_mapFiles,
      mapFiles_mapFiles] at whole
    have record := List.map_inj_left.mp (congrArg FileGraph.files whole) f hf
    exact (congrArg SourceFile.issues record :)
  have masters : (g.mapFiles said).mastersOf f.path = f.masters := by
    rw [mastersOf_mapFiles g path fun _ => rfl, ← (h.records hf).2.2]
  have kept : (g.issuesOf f).filter Issue.isLocal = g.issuesOf f :=
    List.filter_eq_self.mpr fun issue => issuesOf_isLocal order
  rw [issues, owned]
  simp only [said, masters, kept, ownershipIssues, circleOf_mapFiles g path includes]
  rfl

theorem ownershipIssues_isLocal (h : issue ∈ g.ownershipIssues f) : issue.isLocal = false := by
  unfold ownershipIssues at h
  dsimp only at h
  rcases List.mem_append.mp h with h | h
  all_goals
    split at h
    next =>
      rw [List.mem_singleton.mp h]
      rfl
    next => cases h

theorem Linked.counts_iff (h : g.Linked) (order : InPathOrder g.files) (hf : f ∈ g.files)
    (hraw : raw ∈ f.rawIncludes) : f.counts raw = true ↔ ∃ t, g.Resolves f raw t := by
  have edge (t : Path) : f.includes.any (· == t) = true ↔ f.Includes t := by
    simp only [SourceFile.Includes, List.any_eq_true, Path.beq_iff]
  rw [SourceFile.counts, Option.any_eq_true]
  constructor
  · rintro ⟨t, named, there⟩
    obtain ⟨raw', -, t', resolves, same⟩ := (h.includes_iff order hf).mp ((edge t).mp there)
    -- Both are normalized, so the edge is to the very path that the include names.
    obtain rfl : t' = t := (Path.resolveInclude_normalized resolves.1).ext
      (Path.resolveInclude_normalized named) same
    exact ⟨t', named, resolves.2⟩
  · rintro ⟨t, resolves⟩
    have includes := (h.includes_iff order hf).mpr ⟨raw, hraw, t, resolves, rfl⟩
    exact ⟨t, resolves.1, (edge t).mpr includes⟩

/-- The includes of a linked record that are no edges leave one issue each, in their order. -/
theorem Linked.faults (h : g.Linked) (order : InPathOrder g.files) (hf : f ∈ g.files) :
    List.Forall₂ (g.Faults f) (f.rawIncludes.filter fun raw => !f.counts raw)
      (f.issues.filter Issue.isLocal) := by
  have own : f.issues.filter Issue.isLocal = g.issuesOf f := by
    rw [h.issues order hf, List.filter_append,
      List.filter_eq_self.mpr fun issue => issuesOf_isLocal order,
      List.filter_eq_nil_iff.mpr fun issue hi => by simp [ownershipIssues_isLocal hi],
      List.append_nil]
  rw [own, issuesOf]
  have each : ∀ raw ∈ f.rawIncludes, f.counts raw = true ↔ ∃ t, g.Resolves f raw t :=
    fun raw => h.counts_iff order hf
  generalize f.rawIncludes = raws at each
  induction raws with
  | nil => exact .nil
  | cons raw rest ih =>
    have spec := g.resolveRaw_spec order f raw
    have here_ := each raw List.mem_cons_self
    have later := ih fun r hr => each r (List.mem_cons_of_mem _ hr)
    cases found : g.resolveRaw f.path raw with
    | ok t =>
      rw [found] at spec
      have counts := here_.mpr ⟨t, spec⟩
      rw [List.filter_cons_of_neg (by simp [counts]), List.filterMap_cons_none (by rw [found])]
      exact later
    | error issue =>
      rw [found] at spec
      have fails : f.counts raw = false := by
        refine Bool.eq_false_iff.mpr fun counts => ?_
        obtain ⟨t, resolves⟩ := here_.mp counts
        exact resolves.not_faults order spec
      rw [List.filter_cons_of_pos (by simp [fails]), List.filterMap_cons_some (by rw [found])]
      exact .cons spec later

/-- What the includes of a tracked file come to: edges, each once, and issues for the others. -/
structure HasIncludes (g : FileGraph) (f : SourceFile) : Prop where
  once : f.includes.Pairwise fun p q => p.parts ≠ q.parts
  edges : ∀ p, f.Includes p ↔ ∃ k ∈ g.files, k.path.parts = p.parts ∧ f.Mentions k.path ∧
    k.path.parts ≠ f.path.parts ∧ ¬ k.Mentions f.path
  not_itself : ¬ f.Includes f.path
  one_way : ∀ k ∈ g.files, f.Includes k.path → ¬ k.Includes f.path
  faults : List.Forall₂ (g.Faults f) (f.rawIncludes.filter fun raw => !f.counts raw)
    (f.issues.filter Issue.isLocal)

theorem Linked.edges (h : g.Linked) (order : InPathOrder g.files) (hf : f ∈ g.files) (p : Path) :
    f.Includes p ↔ ∃ k ∈ g.files, k.path.parts = p.parts ∧ f.Mentions k.path ∧
      k.path.parts ≠ f.path.parts ∧ ¬ k.Mentions f.path := by
  rw [h.includes_iff order hf]
  constructor
  · rintro ⟨raw, hraw, t, ⟨named, other, k, hk, path, one_way⟩, same⟩
    exact ⟨k, hk, path.trans same, ⟨raw, hraw, t, named, path.symm⟩, path ▸ other, one_way⟩
  · rintro ⟨k, hk, same, ⟨raw, hraw, t, named, path⟩, other, one_way⟩
    exact ⟨raw, hraw, t, ⟨named, path ▸ other, k, hk, path.symm, one_way⟩, path.trans same⟩

theorem Linked.mentions (h : g.Linked) (order : InPathOrder g.files) (hf : f ∈ g.files)
    (edge : f.Includes p) : f.Mentions p := by
  obtain ⟨raw, hraw, t, resolves, same⟩ := (h.includes_iff order hf).mp edge
  exact ⟨raw, hraw, t, resolves.1, same⟩

theorem Linked.not_itself (h : g.Linked) (order : InPathOrder g.files) (hf : f ∈ g.files) :
    ¬ f.Includes f.path := by
  intro itself
  obtain ⟨k, hk, path, -, other, -⟩ := (h.edges order hf _).mp itself
  exact other path

theorem Linked.one_way (h : g.Linked) (order : InPathOrder g.files) (hf : f ∈ g.files)
    (hk : k ∈ g.files) (edge : f.Includes k.path) : ¬ k.Includes f.path := by
  intro back
  obtain ⟨j, hj, path, -, -, unnamed⟩ := (h.edges order hf _).mp edge
  obtain rfl := order.unique hj hk path
  exact unnamed (h.mentions order hk back)

/-- In a graph that was just read, a file includes exactly the other tracked files that it names
and that do not name it; so no file includes itself, and no two files include each other. Each
include that is no edge leaves one issue, which says why, and the issues stand in the order of the
text. -/
theorem JustRead.hasIncludes (read : g.JustRead) : ∀ f ∈ g.files, g.HasIncludes f := by
  obtain ⟨order, linked⟩ := read.linked
  intro f hf
  refine ⟨?_, linked.edges order hf, linked.not_itself order hf,
    fun k hk => linked.one_way order hf hk, linked.faults order hf⟩
  rw [(linked.records hf).1]
  exact addNew_pairwise .nil

/-- A project before its main file was read. -/
def unreadGraph : FileGraph where
  root := .ofText "/story"
  options := { extension := "ink" }
  files := [{ path := .ofText "back.ink", rawIncludes := ["main.ink"] },
    { path := .ofText "main.ink" }, { path := .ofText "part.ink" }]

/-- A main file with every kind of include. -/
def tangledDisk : MemoryDisk :=
  MemoryDisk.empty.addFile (.ofText "/story/main.ink")
    ("INCLUDE lost.ink\nINCLUDE part.ink\nINCLUDE main.ink\nINCLUDE ../far.ink\n" ++
      "INCLUDE back.ink\nINCLUDE ./part.ink\n").toUTF8

theorem tangled_hasIncludes :
    let new := (unreadGraph.refresh tangledDisk (.ofText "main.ink")).2.graph
    new.files.map (fun f => (f.path.text, f.includes.map Path.text, f.issues.map Issue.message)) =
      [("back.ink", [], ["circular include: this file and main.ink include each other"]),
        ("main.ink", ["part.ink"],
          ["included file 'lost.ink' was not found", "file includes itself via 'main.ink'",
            "included file '../far.ink' is outside the project",
            "circular include: this file and back.ink include each other"]),
        ("part.ink", [], [])] ∧
      ∀ f ∈ new.files, new.HasIncludes f := by
  have order : InPathOrder unreadGraph.files := by
    unfold InPathOrder
    decide +kernel
  exact ⟨by decide +kernel, (JustRead.refreshed order (by decide +kernel)).hasIncludes⟩

end FileGraph

end StoryBuild
