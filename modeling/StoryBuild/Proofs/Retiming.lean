import StoryBuild.Graph.IncludeMap
import StoryBuild.Graph.Refresh
import StoryBuild.Proofs.Outcomes

namespace StoryBuild

namespace SourceFile

variable (times : Nat → Nat) (f : SourceFile)

/-- A record whose time is numbered anew. -/
def retimed : SourceFile :=
  { f with modified := f.modified.map times }

@[simp] theorem retimed_path : (f.retimed times).path = f.path := rfl

@[simp] theorem retimed_raw : (f.retimed times).rawIncludes = f.rawIncludes := rfl

@[simp] theorem retimed_includes : (f.retimed times).includes = f.includes := rfl

@[simp] theorem retimed_parents : (f.retimed times).parents = f.parents := rfl

@[simp] theorem retimed_unhandled : (f.retimed times).unhandled = f.unhandled := rfl

@[simp] theorem retimed_issues : (f.retimed times).issues = f.issues := rfl

end SourceFile

namespace FileGraph

variable {g : FileGraph} {times : Nat → Nat}

/-- A graph whose times on record are numbered anew. -/
def retimed (times : Nat → Nat) (g : FileGraph) : FileGraph :=
  g.mapFiles (SourceFile.retimed times)

section Retimed

open SourceFile (retimed_path retimed_raw retimed_includes retimed_parents)

variable (times) (g)

theorem retimed_isTracked (p : Path) : (g.retimed times).isTracked p = g.isTracked p :=
  isTracked_mapFiles g (retimed_path times) p

theorem retimed_file (p : Path) :
    (g.retimed times).file? p = (g.file? p).map (SourceFile.retimed times) :=
  file_mapFiles g (retimed_path times) p

theorem retimed_family (p : Path) : (g.retimed times).family p = g.family p :=
  reach_mapFiles g (retimed_path times) (retimed_includes times) p

theorem retimed_paths : (g.retimed times).paths = g.paths := by
  rw [paths, retimed, mapFiles, List.map_map]
  rfl

theorem retimed_masterFiles :
    (g.retimed times).masterFiles = g.masterFiles.map (SourceFile.retimed times) := by
  rw [masterFiles, retimed, mapFiles, List.filter_map]
  rfl

theorem retimed_includeMap (p : Path) : (g.retimed times).includeMap p = g.includeMap p := by
  have rows (f : SourceFile) : (g.retimed times).rowsOf (f.retimed times) = g.rowsOf f := by
    simp only [rowsOf, retimed_isTracked]
    rfl
  unfold includeMap
  rw [retimed_family]
  refine congrArg (List.foldl _ []) (List.flatMap_congr fun q _ => ?_)
  rw [retimed_file]
  cases g.file? q with
  | none => rfl
  | some f => exact rows f

theorem retimed_familyHasErrors (p : Path) :
    (g.retimed times).familyHasErrors p = g.familyHasErrors p := by
  unfold familyHasErrors
  rw [retimed_family]
  simp only [retimed_file, Option.any_map]
  rfl

theorem retimed_recordedMasters (p : Path) :
    (g.retimed times).recordedMasters p = g.recordedMasters p := by
  rw [recordedMasters, retimed_file, Option.map_map]
  rfl

theorem retimed_affected (new : FileGraph) (p : Path) :
    (g.retimed times).affected (new.retimed times) p = g.affected new p := by
  unfold affected
  rw [retimed_recordedMasters, retimed_recordedMasters, retimed, mapFiles, List.filter_map,
    List.map_map]
  rfl

theorem retimed_relink : (g.retimed times).relink = g.relink.retimed times := by
  have resolved : (g.retimed times).resolveAll = g.resolveAll.retimed times := by
    rw [retimed, resolveAll_mapFiles g (retimed_path times) (retimed_raw times), retimed,
      resolveAll, mapFiles_mapFiles]
    rfl
  have linked (h : FileGraph) :
      (h.retimed times).withParents = h.withParents.retimed times := by
    have parents := parentsOf_mapFiles h (retimed_path times) (retimed_includes times)
    rw [withParents, withParents, retimed, mapFiles_mapFiles, retimed, mapFiles_mapFiles]
    simp only [parents]
    rfl
  have owned (h : FileGraph) (f : SourceFile) :
      (h.retimed times).owned (f.retimed times) = (h.owned f).retimed times := by
    have masters := mastersOf_mapFiles h (retimed_path times) (retimed_parents times)
    have circle := circleOf_mapFiles h (retimed_path times) (retimed_includes times)
    unfold FileGraph.owned ownershipIssues
    rw [retimed]
    simp only [masters, circle]
    rfl
  rw [relink, relink, resolved, rebuildOwnership, rebuildOwnership, linked, retimed,
    mapFiles_mapFiles, retimed, mapFiles_mapFiles]
  exact mapFiles_congr fun f _ => owned _ f

theorem retimed_update (p : Path) {change change' : SourceFile → SourceFile}
    (same : ∀ f, change' (f.retimed times) = (change f).retimed times) :
    (g.retimed times).update p change' = (g.update p change).retimed times := by
  rw [retimed, update, mapFiles_mapFiles, update, retimed, mapFiles_mapFiles]
  refine mapFiles_congr fun f _ => ?_
  rw [apply_ite (SourceFile.retimed times), same]
  rfl

theorem retimed_applyOutcome (master : Path) (diagnostics : List Diagnostic)
    (unhandled : List String) (artifact : Option Path) (time : Nat) :
    (g.retimed times).applyOutcome master diagnostics unhandled artifact time =
      (g.applyOutcome master diagnostics unhandled artifact time).retimed times := by
  have speaks (q : Path) : (g.retimed times).speaksFor master q = g.speaksFor master q := by
    rw [speaksFor, speaksFor, retimed_file, Option.any_map]
    rfl
  have owner (family : List Path) (d : Diagnostic) :
      (g.retimed times).ownerOf master family d = g.ownerOf master family d := by
    unfold ownerOf
    rw [funext speaks]
  have filled (family : List Path) (ds : List Diagnostic) (h : FileGraph) :
      ds.foldl (fun h d => h.update (g.ownerOf master family d) (·.addDiagnostic d))
        (h.retimed times) =
      (ds.foldl (fun h d => h.update (g.ownerOf master family d) (·.addDiagnostic d))
        h).retimed times := by
    induction ds generalizing h with
    | nil => rfl
    | cons d rest ih =>
      have added (f : SourceFile) :
          (f.retimed times).addDiagnostic d = (f.addDiagnostic d).retimed times := by
        rw [SourceFile.addDiagnostic_eq, SourceFile.addDiagnostic_eq]
        rfl
      rw [List.foldl_cons, List.foldl_cons, retimed_update h times _ added, ih]
  have cleared (family : List Path) : (g.retimed times).clearFamily master family =
      (g.clearFamily master family).retimed times := by
    rw [clearFamily, clearFamily, retimed, mapFiles_mapFiles, retimed, mapFiles_mapFiles]
    refine mapFiles_congr fun f _ => ?_
    rw [apply_ite (SourceFile.retimed times)]
    rfl
  unfold applyOutcome
  dsimp only
  rw [retimed_family, cleared]
  simp only [owner]
  rw [filled]
  exact retimed_update _ times master fun _ => rfl

theorem retimed_insert (f : SourceFile) :
    (g.retimed times).insert (f.retimed times) = (g.insert f).retimed times := by
  have inserted (l : List SourceFile) :
      insertByPath (f.retimed times) (l.map (SourceFile.retimed times)) =
        (insertByPath f l).map (SourceFile.retimed times) := by
    induction l with
    | nil => rfl
    | cons h rest ih =>
      rw [List.map_cons, insertByPath, insertByPath]
      simp only [retimed_path, ih]
      split
      next => rfl
      next => split <;> rfl
  rw [insert, insert, retimed, retimed, mapFiles, mapFiles, inserted]

end Retimed

end FileGraph

end StoryBuild
