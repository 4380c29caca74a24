import StoryBuild.Proofs.BatchErrors
import StoryBuild.Proofs.SoundGraphs
import StoryBuild.Proofs.Waits

namespace StoryBuild

theorem Sandbox.write_time {s s' : Sandbox} {p q : Path} {content : ByteArray}
    {r : Except IoError Unit} (timely : s.disk.Timely)
    (written : Storage.write s p content = (r, s')) (other : p.parts ≠ q.parts) :
    Storage.time? s' q = Storage.time? s q := by
  cases r with
  | ok u =>
    have seen := MemoryDisk.timeAt_addFile (d := s.disk) p content q.parts
    rw [if_neg other] at seen
    rw [write_ok written, time_sandbox timely]
    exact (time_sandbox (timely.addFile p content) q).trans seen
  | error cause =>
    obtain ⟨writeFaults, rfl⟩ := write_refused written
    have timely' : MemoryDisk.Timely { s.disk with writeFaults } :=
      ⟨timely.faultless, timely.past⟩
    rw [time_sandbox timely]
    exact time_sandbox (s := s.mapDisk fun d => { d with writeFaults }) timely' q

namespace FileGraph

section Verdict

variable {σ : Type} [Storage σ] {g new next : FileGraph} {s s' s'' : σ} {f k : SourceFile}
  {m : Path}

/-- All that the verdict on a master goes by is as it was. -/
structure KeepsVerdict (m : Path) (g : FileGraph) (s : σ) (new : FileGraph) (s' : σ) : Prop where
  links : new.mapFiles SourceFile.linkage = g.mapFiles SourceFile.linkage
  recorded : new.mapFiles SourceFile.dated = g.mapFiles SourceFile.dated
  unhandled : (new.file? m).map SourceFile.unhandled = (g.file? m).map SourceFile.unhandled
  sources : ∀ p, g.isTracked p = true →
    Storage.time? s' (g.absolute p) = Storage.time? s (g.absolute p)
  artifact : Storage.time? s' (g.absolute (g.artifactPath m)) =
    Storage.time? s (g.absolute (g.artifactPath m))

namespace KeepsVerdict

theorem refl (m : Path) (g : FileGraph) (s : σ) : KeepsVerdict m g s g s :=
  ⟨rfl, rfl, rfl, fun _ _ => rfl, rfl⟩

theorem trans (h : KeepsVerdict m g s new s') (h' : KeepsVerdict m new s' next s'') :
    KeepsVerdict m g s next s'' := by
  have place : new.place = g.place := (congrArg FileGraph.place h.links :)
  refine ⟨h'.links.trans h.links, h'.recorded.trans h.recorded, h'.unhandled.trans h.unhandled,
    fun p tracked => ?_, ?_⟩
  · have onward := h'.sources p ((isTracked_of_linkage h.links p).trans tracked)
    rw [absolute_of_place place] at onward
    exact onward.trans (h.sources p tracked)
  · have onward := h'.artifact
    rw [artifact_of_place place] at onward
    exact onward.trans h.artifact

theorem symm (h : KeepsVerdict m g s new s') : KeepsVerdict m new s' g s := by
  have place : new.place = g.place := (congrArg FileGraph.place h.links :)
  refine ⟨h.links.symm, h.recorded.symm, h.unhandled.symm, fun p tracked => ?_, ?_⟩
  · rw [absolute_of_place place]
    exact (h.sources p ((isTracked_of_linkage h.links p).symm.trans tracked)).symm
  · rw [artifact_of_place place]
    exact h.artifact.symm

/-- A master that was up to date still is. -/
theorem onward (h : KeepsVerdict f.path g s new s') (found : g.file? f.path = some f)
    (found' : new.file? f.path = some k) (upToDate : g.UpToDate s f) : new.UpToDate s' k := by
  have place : new.place = g.place := (congrArg FileGraph.place h.links :)
  have path : k.path = f.path := by
    have same := file_of_view h.links (fun _ => rfl) f.path
    rw [found, found'] at same
    exact (congrArg SourceFile.path (Option.some.inj same) :)
  have unhandled : k.unhandled = f.unhandled := by
    have same := h.unhandled
    rw [found, found'] at same
    exact Option.some.inj same
  obtain ⟨handled, time, there, old⟩ := upToDate
  refine ⟨unhandled.trans handled, time, ?_, fun p hp t at_ => ?_⟩
  · rw [path, artifact_of_place place, h.artifact]
    exact there
  · rw [path, family_of_linkage h.links] at hp
    have source := sourceTime_of_view h.links h.recorded (h.sources p (tracked_of_family hp))
    exact old p hp t (source ▸ at_)

end KeepsVerdict

end Verdict

variable {g : FileGraph} {m q : Path}

/-- The result of another compile does not touch the record of a master. -/
theorem Sound.file_applyResult (h : g.Sound) (master : g.isMaster m = true)
    (other : q.parts ≠ m.parts) (r : CompileResult) : (g.applyResult q r).file? m = g.file? m := by
  rw [applyResult_eq h.order, file_mapFiles g fun f => recordAfter_path g q r f]
  cases found : g.file? m with
  | none => rfl
  | some f =>
    have path := (file_found found).2
    have outside : (g.family q).any (· == f.path) = false :=
      h.alone ((isMaster_congr path).trans master) fun same => other (same.trans path)
    have away : g.covers q f = false := by rw [covers, outside, Bool.false_and]
    rw [Option.map_some, recordAfter_of_not_covers r away]

end FileGraph

/-- A job passes a master by: it is not its own, and its artifact goes elsewhere. -/
structure Job.Passes (g : FileGraph) (m : Path) (j : Job) : Prop where
  other : j.path.parts ≠ m.parts
  elsewhere : j.output.parts ≠ (g.absolute (g.artifactPath m)).parts

theorem Job.Passes.of_linkage {g new : FileGraph} {m : Path} {j : Job} (h : j.Passes g m)
    (links : new.mapFiles SourceFile.linkage = g.mapFiles SourceFile.linkage) : j.Passes new m := by
  have place : new.place = g.place := (congrArg FileGraph.place links :)
  refine ⟨h.other, ?_⟩
  rw [FileGraph.artifact_of_place place]
  exact h.elsewhere

namespace Engine

open FileGraph

variable {e : Engine Sandbox} {j : Job} {m : Path}

theorem deliver_time {s : Sandbox} {q : Path} (timely : s.disk.Timely)
    (elsewhere : j.output.parts ≠ q.parts) :
    Storage.time? (j.deliver s).2 q = Storage.time? s q := by
  unfold Job.deliver
  split
  next => rfl
  next content _ =>
    split
    next site written => exact Sandbox.write_time timely written elsewhere
    next cause site refused => exact Sandbox.write_time timely refused elsewhere

theorem applyJob_keepsVerdict (s : Summary) (sound : e.graph.Sound)
    (timed : e.graph.Timed e.site) (master : e.graph.isMaster m = true) (safe : j.Safe e.graph)
    (passes : j.Passes e.graph m) :
    KeepsVerdict m e.graph e.site (applyJob (s, e) j).2.graph (applyJob (s, e) j).2.site := by
  obtain ⟨⟨r, -, -, graph⟩, site⟩ := applyJob_result s e j
  rw [graph, site]
  refine ⟨linkage_applyResult _ _ _, dated_applyOutcome _, ?_, fun p tracked => ?_, ?_⟩
  · rw [sound.file_applyResult master passes.other r]
  · exact deliver_time timed.timely (safe.away p tracked).symm
  · exact deliver_time timed.timely passes.elsewhere

theorem applyJobs_keepsVerdict (jobs : List Job) (s : Summary) {e : Engine Sandbox}
    (sound : e.graph.Sound) (timed : e.graph.Timed e.site) (master : e.graph.isMaster m = true)
    (each : ∀ j ∈ jobs, j.Safe e.graph ∧ j.Passes e.graph m) :
    KeepsVerdict m e.graph e.site (jobs.foldl applyJob (s, e)).2.graph
      (jobs.foldl applyJob (s, e)).2.site := by
  induction jobs generalizing s e with
  | nil => exact .refl m _ _
  | cons j rest ih =>
    obtain ⟨safe, passes⟩ := each j List.mem_cons_self
    have first := applyJob_keepsVerdict s sound timed master safe passes
    have links := first.links
    have others := ih (applyJob (s, e) j).1 (sound.of_linkage links) (applyJob_timed s j timed)
      ((isMaster_of_linkage links m).trans master) fun k hk =>
        ⟨(each k (List.mem_cons_of_mem j hk)).1.of_linkage links,
          (each k (List.mem_cons_of_mem j hk)).2.of_linkage links⟩
    exact first.trans others

end Engine

namespace Desk

open FileGraph

variable {R : Rules} {c d : Desk Sandbox} {g : FileGraph} {files : List Path} {m : Path}

/-- A master is a bystander of a desk: it is one, none of the jobs has to do with it, and the
snapshot does not go where its artifact is. -/
structure Bystander (m : Path) (d : Desk Sandbox) : Prop where
  sound : d.graph.Sound
  master : d.graph.isMaster m = true
  jobs : ∀ j, j ∈ d.jobs ∨ j ∈ d.abandoned → j.Passes d.graph m
  kept : ∀ p, d.options.statePath = some p →
    p.parts ≠ (d.graph.absolute (d.graph.artifactPath m)).parts

/-- As long as no job is queued, a bystander stays one. -/
theorem step_bystander (step : Step R c d) (never : ∀ core, ¬ R.queue core)
    (h : c.Bystander m) : d.Bystander m := by
  have links := step_links step
  have place : d.graph.place = c.graph.place := (congrArg FileGraph.place links :)
  refine ⟨h.sound.of_linkage links, (step_isMaster step m).trans h.master, fun j hj => ?_, ?_⟩
  · have passes := step_everyJob (P := fun _ q output => q.parts ≠ m.parts ∧
      output.parts ≠ (c.graph.absolute (c.graph.artifactPath m)).parts) step
      (fun _ may => absurd may (never _)) (fun j hj => ⟨(h.jobs j hj).other,
        (h.jobs j hj).elsewhere⟩) j hj
    exact Job.Passes.of_linkage ⟨passes.1, passes.2⟩ links
  · rw [step_options step, artifact_of_place place]
    exact h.kept

/-- No step changes the verdict on a bystander. -/
theorem step_keepsVerdict (step : Step R c d) (apart : c.Apart g files) (h : c.Bystander m) :
    KeepsVerdict m c.graph c.site d.graph d.site := by
  have saved {p : Path} {site : Sandbox} {r : Except IoError Unit} {content : ByteArray}
      (kept : c.options.statePath = some p)
      (written : Storage.write c.site p content = (r, site)) :
      KeepsVerdict m c.graph c.site c.graph site := by
    refine ⟨rfl, rfl, rfl, fun q tracked => ?_, ?_⟩
    · have away := apart.away (apart.kept p kept) q tracked
      exact Sandbox.write_time apart.timed.timely written away.symm
    · exact Sandbox.write_time apart.timed.timely written (h.kept p kept)
  cases step with
  | wander how => cases how <;> exact .refl m _ _
  | save p kept may written => exact saved kept written
  | refuse p kept refused => exact saved kept refused
  | @drain e =>
    refine Engine.applyJobs_keepsVerdict e.batchJobs {}
      (e := { e with jobs := [], abandoned := [] }) h.sound apart.timed h.master fun j hj => ?_
    have active := Engine.batchJobs_mem.mp hj
    exact ⟨apart.safe active, h.jobs j active⟩
  | _ => exact .refl m _ _

theorem course_keepsVerdict (course : Course R c d) (never : ∀ core, ¬ R.queue core)
    (apart : c.Apart g files) (h : c.Bystander m) :
    KeepsVerdict m c.graph c.site d.graph d.site ∧ d.Bystander m := by
  induction course with
  | refl => exact ⟨.refl m _ _, h⟩
  | tail first step ih =>
    have apart' := course_preserves step_apart first apart
    exact ⟨ih.1.trans (step_keepsVerdict step apart' ih.2), step_bystander step never ih.2⟩

end Desk

namespace Engine

open FileGraph

variable {e : Engine Sandbox} {g : FileGraph} {files : List Path} {m p : Path}

theorem persist_time {q : Path} (timely : e.site.disk.Timely)
    (elsewhere : ∀ p, e.options.statePath = some p → p.parts ≠ q.parts) :
    Storage.time? e.persist.site q = Storage.time? e.site q := by
  unfold persist
  split
  next => rfl
  next p kept =>
    dsimp only
    split
    next site written => exact Sandbox.write_time timely written (elsewhere p kept)
    next cause site refused => exact Sandbox.write_time timely refused (elsewhere p kept)

theorem addJob_graph {σ : Type} [Workshop σ] (e : Engine σ) (p : Path) (immediate : Bool) :
    (e.addJob p immediate).graph = e.graph := by
  unfold addJob suspendHost
  split <;> exact (persist_ground _).graph

/-- A new job is told to the host and goes into a snapshot. -/
theorem addJob_keepsVerdict (apart : (e.desk .steady true).Apart g files)
    (h : (e.desk .steady true).Bystander m) :
    KeepsVerdict m e.graph e.site (e.addJob p false).graph (e.addJob p false).site := by
  have time {q : Path} (elsewhere : ∀ p, e.options.statePath = some p → p.parts ≠ q.parts) :
      Storage.time? (e.addJob p false).site q = Storage.time? e.site q := by
    unfold addJob suspendHost
    split
    next => exact persist_time (e := note _ _) apart.timed.timely elsewhere
    next => exact persist_time (e := note _ _) apart.timed.timely elsewhere
  rw [addJob_graph]
  refine ⟨rfl, rfl, rfl, fun q tracked => ?_, time h.kept⟩
  exact time fun p kept => (apart.away (apart.kept p kept) q tracked).symm

/-- A request for another master leaves a bystander alone. -/
theorem enqueue_bystander (apart : (e.desk .steady true).Apart g files)
    (h : (e.desk .steady true).Bystander m) (editing : e.mode = .editing)
    (accepted : e.refusal? p = none) (passes : (e.newJob p false).Passes e.graph m) :
    KeepsVerdict m e.graph e.site (e.enqueue p false).2.graph (e.enqueue p false).2.site ∧
      ((e.enqueue p false).2.desk .steady true).Bystander m := by
  have added : Desk.Course Rules.keeping (e.desk .steady true)
      ((e.addJob p false).desk .steady true) :=
    addJob_course false true .steady (Rules.keeping_lenient.queue _ editing) accepted
  have first := addJob_keepsVerdict (p := p) apart h
  have jobs : (e.addJob p false).jobs = e.jobs ++ [e.newJob p false] :=
    congrArg Core.jobs (e.addJob_core p false)
  have abandoned : (e.addJob p false).abandoned = e.abandoned :=
    congrArg Core.abandoned (e.addJob_core p false)
  have options : ((e.addJob p false).desk .steady true).options = e.options :=
    Desk.course_options added
  have graph : ((e.addJob p false).desk .steady true).graph = e.graph := e.addJob_graph p false
  have bystander : ((e.addJob p false).desk .steady true).Bystander m := by
    refine ⟨?_, ?_, fun j hj => ?_, ?_⟩
    · rw [graph]
      exact h.sound
    · rw [graph]
      exact h.master
    · change j ∈ (e.addJob p false).jobs ∨ j ∈ (e.addJob p false).abandoned at hj
      rw [jobs, abandoned, List.mem_append] at hj
      rw [graph]
      rcases hj with (old | new) | given
      · exact h.jobs j (.inl old)
      · rw [List.mem_singleton.mp new]
        exact passes
      · exact h.jobs j (.inr given)
    · rw [graph, options]
      exact h.kept
  have started := drain_course (R := Rules.still) Stage.maySave_steady (e.addJob p false) e.clock
  have apart' := Desk.course_preserves Desk.step_apart added apart
  obtain ⟨second, bystander'⟩ := Desk.course_keepsVerdict started (fun _ => id) apart' bystander
  simp only [enqueue, enqueueAt, submit, accepted, Bool.false_eq_true, if_false]
  exact ⟨first.trans second, bystander'⟩

end Engine

end StoryBuild
