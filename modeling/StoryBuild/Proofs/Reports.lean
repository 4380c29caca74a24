import StoryBuild.Proofs.BatchErrors
import StoryBuild.Proofs.SavedDisks

namespace StoryBuild

namespace SourceFile

variable (f : SourceFile)

/-- A record that tells that a file was compiled, but not when. -/
def timeless : SourceFile :=
  { f with compiled := f.compiled.map fun _ => 0 }

@[simp] theorem timeless_path : f.timeless.path = f.path := rfl

@[simp] theorem timeless_isOwnedBy (m : Path) : f.timeless.isOwnedBy m = f.isOwnedBy m := rfl

theorem timeless_timeless : f.timeless.timeless = f.timeless := by
  simp only [timeless, Option.map_map]
  rfl

end SourceFile

namespace FileGraph

variable {g new : FileGraph} {f k : SourceFile} {r : CompileResult}

/-- A graph that does not tell when its files were compiled. -/
def timeless (g : FileGraph) : FileGraph :=
  g.mapFiles SourceFile.timeless

theorem linkage_of_timeless (same : new.timeless = g.timeless) :
    new.mapFiles SourceFile.linkage = g.mapFiles SourceFile.linkage := by
  have view (g : FileGraph) : g.timeless.mapFiles SourceFile.linkage =
      g.mapFiles SourceFile.linkage := mapFiles_mapFiles g _ _
  rw [← view, same, view]

/-- What a compile puts on record does not go by times. -/
theorem timeless_recordAfter (g : FileGraph) (m : Path) (r : CompileResult) (time : Nat)
    (f : SourceFile) :
    (g.recordAfter m { r with time } f).timeless = (g.recordAfter m r f.timeless).timeless := by
  have settles : g.covers m f.timeless = g.covers m f := rfl
  have heard : g.heard m r.diagnostics f.timeless = g.heard m r.diagnostics f := rfl
  have told (mine : List Diagnostic) :
      (f.timeless.retold mine).timeless = (f.retold mine).timeless :=
    SourceFile.timeless_timeless (f.retold mine)
  unfold recordAfter
  rw [settles, heard, SourceFile.timeless_path]
  split
  next =>
    dsimp only
    split
    next => rfl
    next => exact (told _).symm
  next => exact f.timeless_timeless.symm

theorem timeless_applyResult (order : InPathOrder g.files) (same : new.timeless = g.timeless)
    (m : Path) (r : CompileResult) (time : Nat) :
    (new.applyResult m { r with time }).timeless = (g.applyResult m r).timeless := by
  have links := linkage_of_timeless same
  have view (h : FileGraph) (r : CompileResult) (time : Nat) :
      (h.mapFiles (g.recordAfter m { r with time })).timeless =
        h.timeless.mapFiles fun f => (g.recordAfter m r f).timeless := by
    rw [timeless, mapFiles_mapFiles, timeless, mapFiles_mapFiles]
    exact mapFiles_congr fun f _ => g.timeless_recordAfter m r time f
  rw [applyResult_eq (inPathOrder_of_linkage order links), applyResult_eq order,
    funext (recordAfter_of_linkage links m { r with time })]
  calc (new.mapFiles (g.recordAfter m { r with time })).timeless
      _ = new.timeless.mapFiles fun f => (g.recordAfter m r f).timeless := view new r time
      _ = g.timeless.mapFiles fun f => (g.recordAfter m r f).timeless := by rw [same]
      _ = (g.mapFiles (g.recordAfter m r)).timeless := (view g r r.time).symm

end FileGraph

/-- What a job has come to, and where its artifact goes. -/
structure JobReport where
  path : Path
  output : Path
  outcome : Outcome

/-- What the record of a job goes by. -/
def Job.report (j : Job) : JobReport :=
  ⟨j.path, j.output, ⟨j.artifact, j.lines, j.unhandled⟩⟩

namespace Engine

variable {e d f : Engine Sandbox} {j k : Job}

/-- Two engines with the same records, up to the times of compiles, over the same files, up to the
snapshot. -/
structure Alike (e d : Engine Sandbox) : Prop where
  options : d.options = e.options
  graph : d.graph.timeless = e.graph.timeless
  site : Sandbox.AlikeBut e.options.statePath e.site d.site

theorem Alike.refl (e : Engine Sandbox) : e.Alike e :=
  ⟨rfl, rfl, .refl _ _⟩

theorem Alike.symm (h : e.Alike d) : d.Alike e :=
  ⟨h.options.symm, h.graph.symm, h.options ▸ h.site.symm⟩

theorem Alike.trans (h : e.Alike d) (h' : d.Alike f) : e.Alike f :=
  ⟨h'.options.trans h.options, h'.graph.trans h.graph, h.site.trans (h.options ▸ h'.site)⟩

theorem Alike.place (h : e.Alike d) : d.graph.place = e.graph.place :=
  (congrArg FileGraph.place h.graph :)

theorem writeArtifact_alike (h : e.Alike d) (same : k.report = j.report)
    (away : Sandbox.Elsewhere e.options.statePath j.output.parts) :
    (d.writeArtifact k).1 = (e.writeArtifact j).1 ∧
      (d.writeArtifact k).2.1 = (e.writeArtifact j).2.1 ∧
      Sandbox.AlikeBut e.options.statePath (e.writeArtifact j).2.2.site
        (d.writeArtifact k).2.2.site := by
  have path : k.path = j.path := congrArg JobReport.path same
  have output : k.output = j.output := congrArg JobReport.output same
  have artifact : k.artifact = j.artifact := congrArg (·.outcome.artifact) same
  unfold writeArtifact
  rw [artifact]
  cases j.artifact with
  | none => exact ⟨rfl, rfl, h.site⟩
  | some content =>
    obtain ⟨answer, site⟩ := h.site.write away content
    have goes_to : d.graph.artifactPath k.path = e.graph.artifactPath j.path := by
      rw [path]
      exact congrArg (fun g => g.options.artifactPath j.path) h.graph
    dsimp only
    rw [output]
    generalize Storage.write d.site j.output content = wrote' at answer site ⊢
    generalize Storage.write e.site j.output content = wrote at answer site ⊢
    obtain ⟨result, s⟩ := wrote
    obtain ⟨result', t⟩ := wrote'
    obtain rfl : result' = result := answer
    cases result' with
    | ok => exact ⟨congrArg some goes_to, rfl, site⟩
    | error cause => exact ⟨rfl, rfl, site⟩

/-- The record of a job touches the graph, the storage and the trace only. -/
theorem applyJob_eq (s : Summary) (e : Engine Sandbox) (j : Job) :
    ∃ graph site trace, (applyJob (s, e) j).2 = { e with graph, site, trace } := by
  have wrote : ∃ site trace, (e.writeArtifact j).2.2 = { e with site, trace } := by
    unfold writeArtifact
    split
    next => exact ⟨_, _, rfl⟩
    next => split <;> exact ⟨_, _, rfl⟩
  obtain ⟨site, trace, wrote⟩ := wrote
  unfold applyJob
  dsimp only
  rw [wrote]
  split <;> exact ⟨_, _, _, rfl⟩

theorem applyJobs_eq (jobs : List Job) (s : Summary) (e : Engine Sandbox) :
    ∃ graph site trace, (jobs.foldl applyJob (s, e)).2 = { e with graph, site, trace } := by
  induction jobs generalizing s e with
  | nil => exact ⟨_, _, _, rfl⟩
  | cons j rest ih =>
    obtain ⟨graph, site, trace, first⟩ := applyJob_eq s e j
    obtain ⟨graph', site', trace', others⟩ := ih (applyJob (s, e) j).1 (applyJob (s, e) j).2
    refine ⟨graph', site', trace', others.trans ?_⟩
    rw [first]

theorem applyJobs_options (jobs : List Job) (s : Summary) (e : Engine Sandbox) :
    (jobs.foldl applyJob (s, e)).2.options = e.options := by
  obtain ⟨graph, site, trace, same⟩ := applyJobs_eq jobs s e
  rw [same]

theorem applyJobs_links (jobs : List Job) (s : Summary) (e : Engine Sandbox) :
    (jobs.foldl applyJob (s, e)).2.graph.mapFiles SourceFile.linkage =
      e.graph.mapFiles SourceFile.linkage := by
  induction jobs generalizing s e with
  | nil => rfl
  | cons j rest ih =>
    refine (ih (applyJob (s, e) j).1 (applyJob (s, e) j).2).trans ?_
    rw [(applyJob_rest s e j).1]
    exact FileGraph.linkage_applyOutcome ..

/-- What every write of an artifact keeps of the storage, the record of the jobs keeps. -/
theorem applyJobs_site {P : Sandbox → Prop} (jobs : List Job) (s : Summary) (e : Engine Sandbox)
    (kept : ∀ j ∈ jobs, ∀ site content, P site → P (Storage.write site j.output content).2)
    (start : P e.site) : P (jobs.foldl applyJob (s, e)).2.site := by
  induction jobs generalizing s e with
  | nil => exact start
  | cons j rest ih =>
    have first : P (applyJob (s, e) j).2.site := by
      rw [(applyJob_rest s e j).2]
      unfold writeArtifact
      split
      next => exact start
      next content _ =>
        have wrote := kept j List.mem_cons_self e.site content start
        split
        next same => exact (congrArg (fun w => P w.2) same).mp wrote
        next same => exact (congrArg (fun w => P w.2) same).mp wrote
    exact ih _ _ (fun i hi => kept i (List.mem_cons_of_mem j hi)) first

/-- One report leaves like engines alike. -/
theorem applyJob_alike (order : InPathOrder e.graph.files) (h : e.Alike d)
    (same : k.report = j.report)
    (away : Sandbox.Elsewhere e.options.statePath j.output.parts) (s t : Summary) :
    (applyJob (s, e) j).2.Alike (applyJob (t, d) k).2 := by
  have path : k.path = j.path := congrArg JobReport.path same
  have lines : k.lines = j.lines := congrArg (·.outcome.lines) same
  have unhandled : k.unhandled = j.unhandled := congrArg (·.outcome.unhandled) same
  obtain ⟨artifact, failures, site⟩ := writeArtifact_alike h same away
  obtain ⟨graph, moved⟩ := applyJob_rest s e j
  obtain ⟨graph', moved'⟩ := applyJob_rest t d k
  have options : (applyJob (s, e) j).2.options = e.options := applyJobs_options [j] s e
  have options' : (applyJob (t, d) k).2.options = d.options := applyJobs_options [k] t d
  refine ⟨?_, ?_, ?_⟩
  · rw [options, options', h.options]
  · rw [graph, graph', path, lines, unhandled, artifact, failures]
    exact FileGraph.timeless_applyResult order h.graph j.path
      ⟨Diagnostic.ofLines j.lines, j.unhandled ++ (e.writeArtifact j).2.1, (e.writeArtifact j).1,
        (e.writeArtifact j).2.2.wall⟩ _
  · rw [options, moved, moved']
    exact site

/-- The same reports in the same order leave like engines alike. -/
theorem applyJobs_alike {js ks : List Job} (order : InPathOrder e.graph.files)
    (h : e.Alike d) (same : ks.map Job.report = js.map Job.report)
    (away : ∀ j ∈ js, Sandbox.Elsewhere e.options.statePath j.output.parts) (s t : Summary) :
    (js.foldl applyJob (s, e)).2.Alike (ks.foldl applyJob (t, d)).2 := by
  induction js generalizing ks e d s t with
  | nil =>
    obtain rfl := List.map_eq_nil_iff.mp same
    exact h
  | cons j js ih =>
    obtain ⟨k, ks, rfl, one, rest⟩ := List.map_eq_cons_iff.mp same
    have first := applyJob_alike order h one (away j List.mem_cons_self) s t
    have links : (applyJob (s, e) j).2.graph.mapFiles SourceFile.linkage =
        e.graph.mapFiles SourceFile.linkage :=
      (applyJob_rest s e j).1 ▸ FileGraph.linkage_applyOutcome ..
    have options : (applyJob (s, e) j).2.options = e.options := applyJobs_options [j] s e
    refine ih (FileGraph.inPathOrder_of_linkage order links) first rest ?_ _ _
    rw [options]
    exact fun i hi => away i (List.mem_cons_of_mem j hi)

end Engine

end StoryBuild
