import StoryBuild.Graph.Outcome
import StoryBuild.Proofs.PathParts

namespace StoryBuild

namespace SourceFile

/-- What linking goes by. -/
def bare (f : SourceFile) : SourceFile :=
  { path := f.path, rawIncludes := f.rawIncludes }

/-- What is known once the includes are resolved. -/
def resolvedPart (f : SourceFile) : SourceFile :=
  { path := f.path, rawIncludes := f.rawIncludes, includes := f.includes, issues := f.issues }

/-- What is known once the parents are found, too. -/
def parentPart (f : SourceFile) : SourceFile :=
  { f.resolvedPart with parents := f.parents }

/-- What linking tells about a file, with what it goes by. -/
def linkage (f : SourceFile) : SourceFile :=
  { path := f.path
    rawIncludes := f.rawIncludes
    includes := f.includes
    parents := f.parents
    masters := f.masters
    issues := f.issues }

end SourceFile

namespace FileGraph

theorem mapFiles_mapFiles (g : FileGraph) (h k : SourceFile → SourceFile) :
    (g.mapFiles h).mapFiles k = g.mapFiles fun f => k (h f) := by
  simp only [mapFiles, List.map_map]
  rfl

section Change

variable (g : FileGraph) {change : SourceFile → SourceFile}
  (path : ∀ f, (change f).path = f.path)

include path

theorem file_mapFiles (p : Path) : (g.mapFiles change).file? p = (g.file? p).map change := by
  simp only [file?, mapFiles, List.find?_map, Function.comp_def, path]

theorem isTracked_mapFiles (p : Path) : (g.mapFiles change).isTracked p = g.isTracked p := by
  simp only [isTracked, mapFiles, List.any_map, Function.comp_def, path]

section Raw

variable (raw : ∀ f, (change f).rawIncludes = f.rawIncludes)

include raw

theorem rawTargets_mapFiles (p : Path) : (g.mapFiles change).rawTargets p = g.rawTargets p := by
  unfold rawTargets
  rw [file_mapFiles g path]
  cases g.file? p with
  | none => rfl
  | some f => simp only [Option.map_some, raw]

theorem resolveRaw_mapFiles (source : Path) (text : String) :
    (g.mapFiles change).resolveRaw source text = g.resolveRaw source text := by
  simp only [resolveRaw, isTracked_mapFiles g path, rawTargets_mapFiles g path raw]

/-- Resolving a changed graph gives the same edges and issues. -/
theorem resolveAll_mapFiles :
    (g.mapFiles change).resolveAll =
      g.mapFiles fun f => { change f with includes := g.edgesOf f, issues := g.issuesOf f } := by
  have edges (f : SourceFile) : (g.mapFiles change).edgesOf (change f) = g.edgesOf f := by
    simp only [edgesOf, path, raw, resolveRaw_mapFiles g path raw]
  have issues (f : SourceFile) : (g.mapFiles change).issuesOf (change f) = g.issuesOf f := by
    simp only [issuesOf, path, raw, resolveRaw_mapFiles g path raw]
  rw [resolveAll, mapFiles_mapFiles]
  simp only [resolved, edges, issues]

end Raw

theorem walk_mapFiles {next : SourceFile → List Path} (follow : ∀ f, next (change f) = next f)
    (steps : Nat) (visited stack : List Path) :
    (g.mapFiles change).walk next steps visited stack = g.walk next steps visited stack := by
  induction steps generalizing visited stack with
  | zero => rfl
  | succ steps ih =>
    cases stack with
    | nil => rfl
    | cons p stack =>
      unfold walk
      rw [file_mapFiles g path]
      split
      next => exact ih _ _
      next =>
        cases g.file? p with
        | none => exact ih _ _
        | some f =>
          simp only [Option.map_some, path, follow]
          rw [ih]

theorem reach_mapFiles {next : SourceFile → List Path} (follow : ∀ f, next (change f) = next f)
    (start : Path) : (g.mapFiles change).reach next start = g.reach next start := by
  have bound : (g.mapFiles change).walkBound next = g.walkBound next := by
    simp only [walkBound, mapFiles, List.foldl_map, follow]
  rw [reach, reach, bound, walk_mapFiles g path follow]

theorem parentsOf_mapFiles (includes : ∀ f, (change f).includes = f.includes) (p : Path) :
    (g.mapFiles change).parentsOf p = g.parentsOf p := by
  simp only [parentsOf, mapFiles, List.filter_map, List.map_map, Function.comp_def, includes, path]

theorem mastersOf_mapFiles (parents : ∀ f, (change f).parents = f.parents) (p : Path) :
    (g.mapFiles change).mastersOf p = g.mastersOf p := by
  have above : (g.mapFiles change).reach SourceFile.parents p = g.reach SourceFile.parents p :=
    reach_mapFiles g path parents p
  rw [mastersOf, mastersOf, above]
  simp only [mapFiles, List.filter_map, List.map_map, Function.comp_def, SourceFile.isMaster,
    parents, path]

theorem circleOf_mapFiles (includes : ∀ f, (change f).includes = f.includes) (p : Path) :
    (g.mapFiles change).circleOf p = g.circleOf p := by
  have family (q : Path) : (g.mapFiles change).family q = g.family q :=
    reach_mapFiles g path includes q
  simp only [circleOf, family]
  simp only [mapFiles, List.filter_map, List.map_map, Function.comp_def, path]

end Change

theorem resolveAll_bare (g : FileGraph) :
    (g.mapFiles SourceFile.bare).resolveAll = g.resolveAll.mapFiles SourceFile.resolvedPart := by
  have path : ∀ f : SourceFile, f.bare.path = f.path := fun _ => rfl
  have raw : ∀ f : SourceFile, f.bare.rawIncludes = f.rawIncludes := fun _ => rfl
  rw [resolveAll_mapFiles g path raw, resolveAll, mapFiles_mapFiles]
  rfl

theorem withParents_resolvedPart (g : FileGraph) :
    (g.mapFiles SourceFile.resolvedPart).withParents =
      g.withParents.mapFiles SourceFile.parentPart := by
  have path : ∀ f : SourceFile, f.resolvedPart.path = f.path := fun _ => rfl
  have includes : ∀ f : SourceFile, f.resolvedPart.includes = f.includes := fun _ => rfl
  rw [withParents, withParents, mapFiles_mapFiles, mapFiles_mapFiles]
  simp only [parentsOf_mapFiles g path includes]
  rfl

theorem owned_parentPart (g : FileGraph) (f : SourceFile) :
    (g.mapFiles SourceFile.parentPart).owned f.parentPart = (g.owned f).linkage := by
  have path : ∀ f : SourceFile, f.parentPart.path = f.path := fun _ => rfl
  have includes : ∀ f : SourceFile, f.parentPart.includes = f.includes := fun _ => rfl
  have parents : ∀ f : SourceFile, f.parentPart.parents = f.parents := fun _ => rfl
  unfold owned ownershipIssues
  simp only [mastersOf_mapFiles g path parents, circleOf_mapFiles g path includes]
  rfl

/-- Linking tells the same about two graphs whose files have the same paths and raw includes. -/
theorem linkage_relink (g : FileGraph) :
    g.relink.mapFiles SourceFile.linkage = (g.mapFiles SourceFile.bare).relink := by
  rw [relink, relink, resolveAll_bare, rebuildOwnership, rebuildOwnership,
    withParents_resolvedPart]
  simp only [mapFiles_mapFiles, owned_parentPart]

/-- Linking keeps the paths and the raw includes. -/
theorem bare_relink (g : FileGraph) :
    g.relink.mapFiles SourceFile.bare = g.mapFiles SourceFile.bare := by
  rw [relink, rebuildOwnership, withParents, resolveAll]
  simp only [mapFiles_mapFiles]
  rfl

/-- The record of a path goes by its parts. -/
theorem file_congr_parts {g : FileGraph} {p q : Path} (same : p.parts = q.parts) :
    g.file? p = g.file? q := by
  simp only [file?, Path.beq_congr same]

theorem file_of_view {g new : FileGraph} {view : SourceFile → SourceFile}
    (same : new.mapFiles view = g.mapFiles view) (path : ∀ f, (view f).path = f.path) (p : Path) :
    (new.file? p).map view = (g.file? p).map view := by
  rw [← file_mapFiles new path, same, file_mapFiles g path]

theorem mem_of_view {g new : FileGraph} {f : SourceFile} {view : SourceFile → SourceFile}
    (same : new.mapFiles view = g.mapFiles view) (hf : f ∈ new.files) :
    ∃ k ∈ g.files, view k = view f := by
  have files : new.files.map view = g.files.map view := congrArg FileGraph.files same
  exact List.mem_map.mp (files ▸ List.mem_map_of_mem hf)

/-- Which files are masters is seen from the links. -/
theorem isMaster_of_linkage {g new : FileGraph}
    (same : new.mapFiles SourceFile.linkage = g.mapFiles SourceFile.linkage) (p : Path) :
    new.isMaster p = g.isMaster p := by
  have master (g : FileGraph) :
      g.isMaster p = ((g.file? p).map SourceFile.linkage).any SourceFile.isMaster := by
    rw [isMaster, Option.any_map]
    rfl
  rw [master new, file_of_view same (fun _ => rfl), ← master g]

theorem isMaster_congr {g : FileGraph} {p q : Path} (same : p.parts = q.parts) :
    g.isMaster p = g.isMaster q := by
  rw [isMaster, isMaster, file_congr_parts same]

theorem view_mapFiles {view : SourceFile → SourceFile} (g : FileGraph)
    {change : SourceFile → SourceFile} (same : ∀ f, view (change f) = view f) :
    (g.mapFiles change).mapFiles view = g.mapFiles view := by
  rw [mapFiles_mapFiles]
  simp only [same]

theorem view_update {view : SourceFile → SourceFile} (g : FileGraph) (p : Path)
    {change : SourceFile → SourceFile} (same : ∀ f, view (change f) = view f) :
    (g.update p change).mapFiles view = g.mapFiles view := by
  refine view_mapFiles g fun f => ?_
  split
  next => exact same f
  next => rfl

/-- The result of a compile touches nothing but what compiles say. -/
theorem view_applyOutcome {view : SourceFile → SourceFile}
    (cleared : ∀ f, view f.clearDiagnostics = view f)
    (added : ∀ f d, view (SourceFile.addDiagnostic f d) = view f)
    (filed : ∀ f unhandled compiled artifact,
      view { f with unhandled, compiled, artifact } = view f)
    (g : FileGraph) (master : Path) (diagnostics : List Diagnostic) (unhandled : List String)
    (artifact : Option Path) (time : Nat) :
    (g.applyOutcome master diagnostics unhandled artifact time).mapFiles view =
      g.mapFiles view := by
  have fill (family : List Path) (ds : List Diagnostic) (h : FileGraph) :
      (ds.foldl (fun h d => h.update (g.ownerOf master family d) (·.addDiagnostic d)) h).mapFiles
        view = h.mapFiles view := by
    induction ds generalizing h with
    | nil => rfl
    | cons d rest ih => exact (ih _).trans (view_update h _ fun f => added f d)
  unfold applyOutcome
  dsimp only
  rw [view_update _ _ fun f => filed f _ _ _, fill]
  refine view_mapFiles g fun f => ?_
  split
  next => exact cleared f
  next => rfl

theorem linkage_applyOutcome (g : FileGraph) (master : Path) (diagnostics : List Diagnostic)
    (unhandled : List String) (artifact : Option Path) (time : Nat) :
    (g.applyOutcome master diagnostics unhandled artifact time).mapFiles SourceFile.linkage =
      g.mapFiles SourceFile.linkage := by
  have added (f : SourceFile) (d : Diagnostic) : (f.addDiagnostic d).linkage = f.linkage := by
    unfold SourceFile.addDiagnostic
    split <;> rfl
  exact view_applyOutcome (fun _ => rfl) added (fun _ _ _ _ => rfl) g master diagnostics unhandled
    artifact time

/-- The links tell the paths and the raw includes. -/
theorem bare_of_linkage {g new : FileGraph}
    (same : new.mapFiles SourceFile.linkage = g.mapFiles SourceFile.linkage) :
    new.mapFiles SourceFile.bare = g.mapFiles SourceFile.bare := by
  have bare (g : FileGraph) : g.mapFiles SourceFile.bare =
      (g.mapFiles SourceFile.linkage).mapFiles SourceFile.bare := by
    rw [mapFiles_mapFiles]
    rfl
  rw [bare new, same, ← bare g]

end FileGraph

end StoryBuild
