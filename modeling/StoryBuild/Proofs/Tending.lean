import StoryBuild.Proofs.ArtifactTimes
import StoryBuild.Proofs.Reacting

namespace StoryBuild

/-- No job is dropped. -/
def Rules.keeping : Rules :=
  { free with drop := fun _ _ => False }

theorem Rules.keeping_lenient : keeping.Lenient :=
  ⟨fun _ _ => trivial, fun _ _ _ => trivial, fun _ _ => trivial⟩

/-- Whether an event queues a job for a master. -/
def Event.asksFor (m : Path) : Event → Bool
  | .queued _ q => q == m
  | _ => false

/-- Since a trace no job was queued for a master. -/
def Unasked (m : Path) (before trace : List Event) : Prop :=
  ∃ since, trace = since ++ before ∧ ∀ event ∈ since, event.asksFor m = false

/-- Whether a batch ended in which a job gave no artifact, or a failure of the compiler. -/
def Event.spoils : Event → Bool
  | .drained _ s => !decide s.Clean
  | _ => false

/-- Since a trace a batch was spoilt. -/
def Spoilt (before trace : List Event) : Prop :=
  Since before Event.spoils trace

theorem Unasked.refl (m : Path) (trace : List Event) : Unasked m trace trace :=
  ⟨[], rfl, fun _ none_ => absurd none_ List.not_mem_nil⟩

theorem Unasked.append {m : Path} {before trace : List Event} (h : Unasked m before trace)
    (events : List Event) (silent : ∀ event ∈ events, event.asksFor m = false) :
    Unasked m before (events ++ trace) := by
  obtain ⟨since, rfl, none_⟩ := h
  refine ⟨events ++ since, (List.append_assoc ..).symm, fun event hevent => ?_⟩
  exact (List.mem_append.mp hevent).elim (silent event) (none_ event)

namespace FileGraph

variable {g new : FileGraph} {files : List Path} {m : Path}

/-- No file of some lies at a place. -/
def Clear (g : FileGraph) (files : List Path) (p : Path) : Prop :=
  ∀ x ∈ files, (g.absolute x).parts ≠ p.parts

/-- No file of some lies where the artifact of a master goes. -/
def ArtifactsApart (g : FileGraph) (files : List Path) : Prop :=
  ∀ f ∈ g.masterFiles, g.Clear files (g.absolute (g.artifactPath f.path))

instance (g : FileGraph) (files : List Path) : Decidable (g.ArtifactsApart files) :=
  inferInstanceAs <| Decidable <| ∀ f ∈ g.masterFiles, ∀ x ∈ files,
    (g.absolute x).parts ≠ (g.absolute (g.artifactPath f.path)).parts

theorem ArtifactsApart.master (h : g.ArtifactsApart files) (is_master : g.isMaster m = true) :
    g.Clear files (g.absolute (g.artifactPath m)) := by
  obtain ⟨f, found, master⟩ := (Option.any_eq_true _ _).mp is_master
  obtain ⟨hf, same⟩ := file_found found
  intro x hx
  rw [← g.artifact_congr same]
  exact h f (List.mem_filter.mpr ⟨hf, master⟩) x hx

theorem ArtifactsApart.of_linkage (h : g.ArtifactsApart files)
    (links : new.mapFiles SourceFile.linkage = g.mapFiles SourceFile.linkage) :
    new.ArtifactsApart files := by
  have place : new.place = g.place := (congrArg FileGraph.place links :)
  intro f hf x hx
  obtain ⟨tracked, master⟩ := List.mem_filter.mp hf
  obtain ⟨k, hk, same⟩ := mem_of_view links tracked
  have parents : k.parents = f.parents := (congrArg SourceFile.parents same :)
  have path : k.path = f.path := (congrArg SourceFile.path same :)
  have master' : k.isMaster = true := by rwa [SourceFile.isMaster, parents]
  rw [absolute_of_place place, artifact_of_place place, ← path]
  exact h k (List.mem_filter.mpr ⟨hk, master'⟩) x hx

end FileGraph

namespace Desk

variable {d : Desk Sandbox}

/-- A desk whose sources are among some files, apart from all artifacts and the snapshot. -/
structure Apart (g : FileGraph) (files : List Path) (d : Desk Sandbox) : Prop where
  sane : d.Sane
  place : d.graph.place = g.place
  known : ∀ f ∈ d.graph.files, f.path ∈ files
  timed : d.graph.Timed d.site
  masters : d.graph.ArtifactsApart files
  jobs : ∀ j, j ∈ d.jobs ∨ j ∈ d.abandoned →
    j.output = g.absolute (g.artifactPath j.path) ∧ g.Clear files j.output
  kept : ∀ p, d.options.statePath = some p → g.Clear files p

variable {R : Rules} {c : Desk Sandbox} {g : FileGraph} {files : List Path} {m : Path}

/-- Where none of the files lies there is no source. -/
theorem Apart.away (h : d.Apart g files) {p : Path} (clear : g.Clear files p) :
    ∀ q, d.graph.isTracked q = true → (d.graph.absolute q).parts ≠ p.parts := by
  intro q tracked
  obtain ⟨f, hf, same⟩ := FileGraph.isTracked_iff.mp tracked
  rw [FileGraph.absolute_of_place h.place, ← g.absolute_congr same]
  exact clear f.path (h.known f hf)

theorem Apart.safe (h : d.Apart g files) {j : Job} (hj : j ∈ d.jobs ∨ j ∈ d.abandoned) :
    j.Safe d.graph := by
  obtain ⟨aimed, clear⟩ := h.jobs j hj
  refine ⟨?_, h.away clear⟩
  rw [aimed, FileGraph.artifact_of_place h.place]

theorem step_timed (step : Step R c d) (h : c.graph.Timed c.site) : d.graph.Timed d.site := by
  cases step with
  | wander how => cases how <;> exact h
  | save p kept may written => exact h.write written
  | refuse p kept refused => exact h.write refused
  | drain => exact Engine.applyBatch_timed h
  | _ => exact h

theorem step_apart (step : Step R c d) (h : c.Apart g files) : d.Apart g files := by
  have links := step_links step
  have place : d.graph.place = c.graph.place := (congrArg FileGraph.place links :)
  refine ⟨step_sane step h.sane, place.trans h.place, fun f hf => ?_, step_timed step h.timed,
    h.masters.of_linkage links, ?_, (step_options step) ▸ h.kept⟩
  · obtain ⟨k, hk, same⟩ := FileGraph.mem_of_view links hf
    exact (congrArg SourceFile.path same :) ▸ h.known k hk
  · refine step_everyJob (P := fun _ q output => output = g.absolute (g.artifactPath q) ∧
      g.Clear files output) step ?_ h.jobs
    intro master _ is_master _
    have output : (c.newJob master false).output = g.absolute (g.artifactPath master) :=
      FileGraph.artifact_of_place h.place master
    have away := h.masters.master is_master
    rw [output]
    refine ⟨rfl, fun x hx => ?_⟩
    rw [← FileGraph.absolute_of_place h.place, ← FileGraph.artifact_of_place h.place]
    exact away x hx

/-- A master is tended: it has a job or is up to date. Two things excuse that it is neither: a batch
was spoilt since a trace, or the master was not asked for since one of some others. -/
inductive Tended (m : Path) (before : List Event) (base : List Event → Prop)
    (d : Desk Sandbox) : Prop
  | spoilt (h : Spoilt before d.trace)
  | busy {j : Job} (held : j ∈ d.jobs ∨ j ∈ d.abandoned) (mine : (j.path == m) = true)
  | current (h : d.graph.Current d.site m)
  | unasked {b : List Event} (based : base b) (h : Unasked m b d.trace)

variable {before : List Event} {base base' : List Event → Prop}

theorem Tended.mono (h : d.Tended m before base) (sub : ∀ b, base b → base' b) :
    d.Tended m before base' := by
  cases h with
  | spoilt h => exact .spoilt h
  | busy held mine => exact .busy held mine
  | current h => exact .current h
  | unasked based h => exact .unasked (sub _ based) h

/-- A batch that ends well brings the masters of its jobs up to date, and outdates no other. -/
theorem drain_current {e : Engine Sandbox} {stage : Stage} {saved : Bool}
    (h : (e.desk stage saved).Apart g files) (within : before <:+ e.trace) :
    (e.graph.Spares e.site e.applyBatch.2.graph e.applyBatch.2.site ∧
      ∀ j, j ∈ e.jobs ∨ j ∈ e.abandoned →
        e.applyBatch.2.graph.Current e.applyBatch.2.site j.path) ∨
    Spoilt before e.applyBatch.2.trace := by
  by_cases clean : e.applyBatch.1.Clean
  · have safe : ∀ j ∈ e.batchJobs, j.Safe e.graph := fun j hj =>
      h.safe (Engine.batchJobs_mem.mp hj)
    obtain ⟨spares, current⟩ := Engine.applyBatch_spares h.timed safe clean
    exact .inl ⟨spares, fun j hj => current j (Engine.batchJobs_mem.mpr hj)⟩
  · have spoils : Event.spoils (.drained e.batchJobs e.applyBatch.1) = true := by
      simpa [Event.spoils] using clean
    exact .inr (drain_since within spoils)

theorem step_spares (step : Step R c d) (h : c.Apart g files) (within : before <:+ c.trace) :
    c.graph.Spares c.site d.graph d.site ∨ Spoilt before d.trace := by
  cases step with
  | wander how => cases how <;> exact .inl (.refl _ _)
  | save p kept may written =>
    exact .inl (FileGraph.write_spares h.timed.timely (h.away (h.kept p kept)) written)
  | refuse p kept refused =>
    exact .inl (FileGraph.write_spares h.timed.timely (h.away (h.kept p kept)) refused)
  | drain => exact (drain_current h within).imp_left And.left
  | _ => exact .inl (.refl _ _)

/-- Whoever is asked for has a job. -/
theorem step_unasked {b : List Event} (step : Step R c d) (h : Unasked m b c.trace) :
    Unasked m b d.trace ∨ ∃ j ∈ d.jobs, (j.path == m) = true := by
  cases step with
  | tell event quiet =>
    refine .inl (h.append [event] fun x hx => ?_)
    rw [List.mem_singleton.mp hx]
    cases event <;> first | rfl | cases quiet
  | queue master immediate =>
    by_cases mine : (master == m) = true
    · refine .inr ⟨c.newJob master immediate, ?_, mine⟩
      exact List.mem_append_right _ (List.mem_singleton.mpr rfl)
    · exact .inl (h.append [_] (by simpa [Event.asksFor] using mine))
  | start j now wall launch =>
    exact .inl (h.append _ (by cases launch <;> simp [Launch.events, Event.asksFor]))
  | @drain e =>
    obtain ⟨deeds, graph, site, said, -, -, same⟩ := e.applyBatch_desk .due true
    rw [same]
    refine .inl (h.append (.drained e.batchJobs e.applyBatch.1 :: deeds) ?_)
    intro event hevent
    rcases List.mem_cons.mp hevent with rfl | hevent
    · rfl
    · cases said event hevent <;> rfl
  | drop =>
    refine .inl (h.append _ fun event hevent => ?_)
    obtain ⟨k, _, rfl⟩ := List.mem_map.mp (List.mem_reverse.mp hevent)
    rfl
  | save | refuse | collect | fire | abandon | restrict | edit | take | turn =>
    exact .inl (h.append [_] (by simp [Event.asksFor]))
  | _ => exact .inl h

/-- A job is there until its batch ends, unless jobs are dropped. -/
theorem step_busy (step : Step R c d) (keeps : ∀ core pending, ¬ R.drop core pending)
    (apart : c.Apart g files) (within : before <:+ c.trace) {j : Job}
    (held : j ∈ c.jobs ∨ j ∈ c.abandoned) (mine : (j.path == m) = true) :
    d.Tended m before base := by
  cases step with
  | queue => exact .busy (held.imp_left (List.mem_append_left _)) mine
  | start k now wall | finish id k o now =>
    rcases held with hj | hj
    · refine .busy (.inl (List.mem_map.mpr ⟨j, hj, rfl⟩)) ?_
      split <;> exact mine
    · exact .busy (.inr hj) mine
  | abandon k given found id path =>
    rcases held with hj | hj
    · by_cases same : j.id = k.id
      · -- A job that is given up belongs to the batch all the same.
        have here_ := apart.sane.job_eq hj (List.mem_of_find?_eq_some found) same
        refine .busy (j := given) (.inr ?_) (by rwa [path, ← here_])
        exact List.mem_append_right _ (List.mem_singleton.mpr rfl)
      · exact .busy (.inl (List.mem_filter.mpr ⟨hj, by simpa using same⟩)) mine
    · exact .busy (.inr (List.mem_append_left _ hj)) mine
  | @drain e =>
    rcases drain_current apart within with ⟨-, current⟩ | spoilt
    · refine .current fun f found => current j held f ?_
      rw [← found]
      exact FileGraph.file_congr_parts (Path.beq_iff.mp mine)
    · exact .spoilt spoilt
  | drop may => exact absurd may (keeps _ _)
  | _ => exact .busy held mine

/-- What is tended stays so, unless jobs are dropped. -/
theorem step_tended (step : Step R c d) (keeps : ∀ core pending, ¬ R.drop core pending)
    (apart : c.Apart g files) (within : before <:+ c.trace) (h : c.Tended m before base) :
    d.Tended m before base := by
  cases h with
  | spoilt h => exact .spoilt (Since.later h (step_grows step))
  | busy held mine => exact step_busy step keeps apart within held mine
  | current h =>
    rcases step_spares step apart within with spares | spoilt
    · exact .current (spares.current h)
    · exact .spoilt spoilt
  | unasked based h =>
    rcases step_unasked step h with unasked | ⟨j, hj, mine⟩
    · exact .unasked based unasked
    · exact .busy (.inl hj) mine

/-- A queued job tends its master, as long as no job is dropped. -/
theorem tended_lasting (g : FileGraph) (files : List Path) (m : Path) (before : List Event)
    (base : List Event → Prop) :
    Lasting Rules.keeping (fun d => d.Apart g files ∧ before <:+ d.trace) (Tended m before base)
      m where
  sane inv := inv.1.sane
  step step inv := ⟨step_apart step inv.1, inv.2.trans (step_grows step)⟩
  keeps step inv := step_tended step (fun _ _ => id) inv.1 inv.2
  queued _ hj _ mine := .busy (.inl hj) mine
  unsaved h := by
    cases h with
    | spoilt h => exact .spoilt h
    | busy held mine => exact .busy held mine
    | current h => exact .current h
    | unasked based h => exact .unasked based h

end Desk

end StoryBuild
