import StoryBuild.Proofs.DiskHistory
import StoryBuild.Proofs.Tending

namespace StoryBuild

/-- Whether a job leaves the queue, which is when its source is read. -/
def Moment.starts (id : Nat) : Moment → Bool
  | .told (.started job) => job == id
  | _ => false

/-- Whether a job has its artifact written. -/
def Moment.produces (id : Nat) : Moment → Bool
  | .told (.produced job) => job == id
  | _ => false

/-- The moments since a job left the queue. -/
def sinceStart (id : Nat) (history : List Moment) : List Moment :=
  history.takeWhile fun x => !x.starts id

/-- Whether the last change of a place was the artifact of a job. -/
def lastMadeBy (id : Nat) (place : List Part) (history : List Moment) : Bool :=
  (sinceChange place history).getLast?.any (Moment.produces id)

namespace MemoryDisk

theorem timeAt_of_isFile {d : MemoryDisk} {p : Path} (file : Storage.isFile d p = true) :
    ∃ t, d.timeAt p.parts = some t := by
  rw [isFile_eq, contentAt] at file
  unfold timeAt
  cases found : standsAt d.entries p.parts with
  | none => simp [found] at file
  | some e =>
    cases e with
    | file content time => exact ⟨time, rfl⟩
    | dir names =>
      rw [found] at file
      cases file

end MemoryDisk

namespace Chronicle

variable {graph : FileGraph} {options : EngineOptions} {site : Sandbox} {dawn : Nat}

/-- In every run, whatever is compiled on change or by hand only: if a master does not have to be
compiled, then no file of its family that is on the disk was changed since its artifact was. -/
theorem run_verdict_holds (timely : site.disk.Timely) (happenings : List Happening) {m : Path} :
    let c := (fresh graph options site dawn).after happenings
    let now := c.engine
    now.graph.isMaster m = true → (now.graph.staleMasters now.site).1.any (· == m) = false →
      ∀ p ∈ now.graph.family m, Storage.isFile now.site (now.graph.absolute p) = true →
        ∀ x ∈ sinceChange (now.graph.absolute (now.graph.artifactPath m)).parts c.history,
          x.place? ≠ some (now.graph.absolute p).parts := by
  intro c now is_master spared p hp file x hx changed
  have dated : c.Dated := after_dated happenings (fresh_dated timely)
  have steady : Storage.Steady now.site := Sandbox.steady dated.timely
  obtain ⟨f, found, master⟩ := (Option.any_eq_true _ _).mp is_master
  obtain ⟨tracked, same⟩ := FileGraph.file_found found
  have up_to_date : now.graph.UpToDate now.site f := by
    refine Classical.byContradiction fun outdated => ?_
    have stale : f.path ∈ (now.graph.staleMasters now.site).1 :=
      ((FileGraph.staleMasters_steady steady).2 f.path).mpr
        ⟨f, List.mem_filter.mpr ⟨tracked, master⟩, rfl, outdated⟩
    exact List.any_eq_false.mp spared f.path stale (Path.beq_iff.mpr same)
  obtain ⟨time, artifact, newest⟩ := up_to_date.newest
  obtain ⟨t, source⟩ := MemoryDisk.timeAt_of_isFile (d := now.site.disk) file
  -- The file is no newer than the artifact, and yet it was changed later.
  have older : t ≤ time := by
    refine newest p ((FileGraph.mem_family_congr same).mpr hp) t ?_
    rw [FileGraph.sourceTime, Sandbox.time_sandbox dated.timely, source]
    rfl
  rw [Sandbox.time_sandbox dated.timely, now.graph.artifact_congr same] at artifact
  have newer := dated.later _ _ ⟨x, hx, changed⟩ time t artifact source
  omega

/-- A master and its part, nothing of which is compiled on change. -/
def pairGraph : FileGraph :=
  FileGraph.relink
    { root := .ofText "/story"
      options := { extension := "ink" }
      files := [{ path := .ofText "main.ink", rawIncludes := ["part.ink"] },
        { path := .ofText "part.ink" }] }

/-- Their files. -/
def pairSite : Sandbox where
  disk := (MemoryDisk.empty.addFile (.ofText "/story/main.ink") "INCLUDE part.ink".toUTF8).addFile
    (.ofText "/story/part.ink") .empty

/-- The master is changed while it is being compiled, and its part for a moment afterwards. -/
def lateEdits : List Happening :=
  [.call (.compileFile (.ofText "main.ink") false) trivial,
    .write (.ofText "/story/main.ink") "INCLUDE part.ink\nNew".toUTF8,
    .call (.sourceChanged (.ofText "main.ink")) trivial,
    .call (.poll 0) trivial,
    .write (.ofText "/story/part.ink") "New".toUTF8,
    .delete (.ofText "/story/part.ink")]

/-- The verdict on a master does not tell of a change between the start of its job and the end of
the batch, nor of one in a file that is gone. -/
theorem late_edits_unnoticed :
    let c := (fresh pairGraph { compileOnChange := false } pairSite 0).after lateEdits
    let now := c.engine
    let m := Path.ofText "main.ink"
    let artifact := (now.graph.absolute (now.graph.artifactPath m)).parts
    now.isBusy = false ∧ now.pending.contains m = false ∧ now.graph.isMaster m = true ∧
      now.graph.ArtifactsApart now.graph.paths ∧
      (now.graph.staleMasters now.site).1.any (· == m) = false ∧
      lastMadeBy 1 artifact c.history = true ∧
      (now.graph.family m).map Path.text = ["main.ink", "part.ink"] ∧
      (sinceStart 1 c.history).any
        (·.place? = some (now.graph.absolute (.ofText "main.ink")).parts) = true ∧
      (sinceChange artifact c.history).any
        (·.place? = some (now.graph.absolute (.ofText "part.ink")).parts) = true := by
  decide +kernel

/-- But there is none in the master itself since its artifact was written. -/
theorem late_edits_before_artifact :
    let c := (fresh pairGraph { compileOnChange := false } pairSite 0).after lateEdits
    let now := c.engine
    let m := Path.ofText "main.ink"
    (now.graph.staleMasters now.site).1.any (· == m) = false ∧
      Storage.isFile now.site (now.graph.absolute m) = true ∧
      ∀ x ∈ sinceChange (now.graph.absolute (now.graph.artifactPath m)).parts c.history,
        x.place? ≠ some (now.graph.absolute m).parts := by
  intro c now m
  have timely : pairSite.disk.Timely := (MemoryDisk.empty_timely.addFile _ _).addFile _ _
  have verdict : now.graph.isMaster m = true ∧
      (now.graph.staleMasters now.site).1.any (· == m) = false ∧
      Storage.isFile now.site (now.graph.absolute m) = true := by decide +kernel
  have own : m ∈ now.graph.family m := by
    have texts : (now.graph.family m).map Path.text = ["main.ink", "part.ink"] := by decide +kernel
    have listed : "main.ink" ∈ (now.graph.family m).map Path.text := by simp [texts]
    obtain ⟨p, hp, text⟩ := List.mem_map.mp listed
    rwa [Path.ext_text (q := m) text] at hp
  exact ⟨verdict.2.1, verdict.2.2,
    run_verdict_holds timely lateEdits verdict.1 verdict.2.1 m own verdict.2.2⟩

end Chronicle

end StoryBuild
