import StoryBuild.Proofs.FileOrder
import StoryBuild.Proofs.Promotion

namespace StoryBuild

/-- What an event writes to a path. -/
def Event.writtenTo? (p : Path) : Event → Option ByteArray
  | .wrote q content => if q == p then some content else none
  | _ => none

/-- What was last written to a path. -/
def lastWritten (p : Path) (trace : List Event) : Option ByteArray :=
  trace.findSome? (Event.writtenTo? p)

/-- The last snapshot resumes a master. -/
def Resumable (m p : Path) (trace : List Event) : Prop :=
  ∃ (s : Snapshot) (q : Path), lastWritten p trace = some s.render.toUTF8 ∧ (q == m) = true ∧
    slashed q.text ∈ s.resume

theorem Event.eq_wrote {p : Path} {event : Event} {content : ByteArray}
    (h : event.writtenTo? p = some content) : ∃ q, event = .wrote q content := by
  cases event with
  | wrote q written =>
    simp only [writtenTo?] at h
    split at h
    next => exact ⟨q, congrArg _ (Option.some.inj h)⟩
    next => cases h
  | _ => cases h

theorem lastWritten_append {p : Path} {events : List Event} (trace : List Event)
    (h : ∀ event ∈ events, event.writtenTo? p = none) :
    lastWritten p (events ++ trace) = lastWritten p trace := by
  have nothing : events.findSome? (Event.writtenTo? p) = none := List.findSome?_eq_none_iff.mpr h
  simp [lastWritten, nothing]

theorem Resumable.append {m p : Path} {trace : List Event} (h : Resumable m p trace)
    (events : List Event) (silent : ∀ event ∈ events, event.writtenTo? p = none) :
    Resumable m p (events ++ trace) := by
  obtain ⟨s, q, last, mine, kept⟩ := h
  exact ⟨s, q, (lastWritten_append trace silent).trans last, mine, kept⟩

/-- What is active or waits is resumed. -/
theorem Snapshot.mem_resume {s : Snapshot} {x : String}
    (h : x ∈ s.active.map SavedJob.path ++ s.pending) : x ∈ s.resume := by
  have loop (l : List String) : ∀ out : List String, x ∈ out ∨ x ∈ l →
      x ∈ l.foldl (fun out p => if p ∈ out then out else out ++ [p]) out := by
    induction l with
    | nil => exact fun _ h => h.resolve_right List.not_mem_nil
    | cons p rest ih =>
      intro out h
      rw [List.foldl_cons]
      -- What has come so far is kept, so it may be listed there or still be to come.
      refine ih _ ?_
      by_cases known : p ∈ out
      · rw [if_pos known]
        refine h.elim .inl fun hx => ?_
        rcases List.mem_cons.mp hx with rfl | hx
        · exact .inl known
        · exact .inr hx
      · rw [if_neg known]
        rcases h with hx | hx
        · exact .inl (List.mem_append_left _ hx)
        · rcases List.mem_cons.mp hx with rfl | hx
          · exact .inl (List.mem_append_right _ List.mem_cons_self)
          · exact .inr hx
  exact loop _ [] (.inr h)

theorem Launch.writes_none {p : Path} {id : Nat} {launch : Launch} :
    ∀ event ∈ launch.events id, event.writtenTo? p = none := by
  cases launch <;> simp [Launch.events, Event.writtenTo?]

/-- No snapshot was refused, and no queued master has its artifact where the snapshot goes. -/
structure Undisturbed (p : Path) (g : FileGraph) (trace : List Event) : Prop where
  accepted : .log refusalLine ∉ trace
  apart : ∀ id q, .queued id q ∈ trace → (g.absolute (g.artifactPath q) == p) = false

/-- Whether an event is a refusal, or queues a master whose artifact goes where the snapshot
goes. -/
def Event.disturbs (p : Path) (g : FileGraph) : Event → Bool
  | .log line => line == refusalLine
  | .queued _ q => g.absolute (g.artifactPath q) == p
  | _ => false

theorem undisturbed_iff {p : Path} {g : FileGraph} {trace : List Event} :
    Undisturbed p g trace ↔ ∀ event ∈ trace, event.disturbs p g = false := by
  constructor
  · intro h event hevent
    cases event with
    | log line => exact beq_eq_false_iff_ne.mpr fun same => h.accepted (same ▸ hevent)
    | queued id q => exact h.apart id q hevent
    | _ => rfl
  · intro h
    exact ⟨fun refused => absurd (h _ refused) (by simp [Event.disturbs]),
      fun id q queued => h _ queued⟩

instance (p : Path) (g : FileGraph) (trace : List Event) : Decidable (Undisturbed p g trace) :=
  decidable_of_iff _ undisturbed_iff.symm

theorem Undisturbed.suffix {p : Path} {g : FileGraph} {earlier trace : List Event}
    (h : Undisturbed p g trace) (within : earlier <:+ trace) : Undisturbed p g earlier :=
  ⟨fun refused => h.accepted (within.subset refused),
    fun id q queued => h.apart id q (within.subset queued)⟩

namespace Desk

variable {σ : Type}

/-- A master waits or has an active job. -/
def Holds (d : Desk σ) (m : Path) : Prop :=
  d.pending.contains m = true ∨ ∃ j ∈ d.jobs, (j.path == m) = true

/-- Once everything is saved, the last snapshot resumes it. -/
def Covered (p : Path) (d : Desk σ) : Prop :=
  d.saved = true → ∀ m, d.Holds m → Resumable m p d.trace

/-- The graph stands where `g` stands, and every job aims at the artifact of its master. -/
structure Aimed (g : FileGraph) (d : Desk σ) : Prop where
  place : d.graph.place = g.place
  jobs : ∀ j, j ∈ d.jobs ∨ j ∈ d.abandoned →
    .queued j.id j.path ∈ d.trace ∧ j.output = g.absolute (g.artifactPath j.path)

theorem Aimed.newJob {g : FileGraph} {d : Desk σ} (h : d.Aimed g) (m : Path) (immediate : Bool) :
    (d.newJob m immediate).output = g.absolute (g.artifactPath m) :=
  FileGraph.artifact_of_place h.place m

theorem snapshot_resumes {d : Desk σ} {m : Path} (valid : d.pending.Valid) (h : d.Holds m) :
    ∃ q : Path, (q == m) = true ∧ slashed q.text ∈ d.snapshot.resume := by
  rcases h with waits | ⟨j, hj, mine⟩
  · obtain ⟨x, hx, same⟩ := (valid.same m).mp waits
    refine ⟨x, Path.beq_iff.mpr same, Snapshot.mem_resume (List.mem_append_right _ ?_)⟩
    exact List.mem_map.mpr ⟨x, hx, rfl⟩
  · refine ⟨j.path, mine, Snapshot.mem_resume (List.mem_append_left _ ?_)⟩
    exact List.mem_map.mpr ⟨_, List.mem_map.mpr ⟨j, hj, rfl⟩, rfl⟩

/-- A snapshot resumes all that waits or is active. -/
theorem save_resumes {d : Desk σ} {m : Path} (p : Path) (valid : d.pending.Valid)
    (h : d.Holds m) : Resumable m p (.wrote p d.snapshot.render.toUTF8 :: d.trace) := by
  obtain ⟨q, mine, kept⟩ := snapshot_resumes valid h
  refine ⟨d.snapshot, q, ?_, mine, kept⟩
  have same : (p == p) = true := Path.beq_iff.mpr rfl
  simp [lastWritten, Event.writtenTo?, same]

variable [Workshop σ] {R : Rules} {c d : Desk σ} {p : Path} {g : FileGraph}

omit [Workshop σ] in
/-- The record of a batch leaves the snapshot alone. -/
theorem deeds_write_none {e : Engine σ} {stage : Stage} {saved : Bool} {deeds : List Event}
    (aimed : (e.desk stage saved).Aimed g) (calm : Undisturbed p g e.trace)
    (said : ∀ event ∈ deeds, Deed e.batchJobs event) :
    ∀ event ∈ deeds, event.writtenTo? p = none := by
  intro event hevent
  cases said event hevent with
  | @wrote j mine content =>
    obtain ⟨queued, output⟩ := aimed.jobs j (Engine.batchJobs_mem.mp mine)
    have other := calm.apart j.id j.path queued
    rw [← output] at other
    simp [Event.writtenTo?, other]
  | _ => rfl

theorem step_aimed (step : Step R c d) (h : c.Aimed g) : d.Aimed g := by
  have same : d.graph.place = c.graph.place := (congrArg FileGraph.place (step_links step) :)
  refine ⟨same.trans h.place, step_everyJob
    (P := fun id q output => .queued id q ∈ d.trace ∧ output = g.absolute (g.artifactPath q))
    step ?_ fun j hj => (h.jobs j hj).imp_left fun queued => (step_grows step).subset queued⟩
  intro master _ _ queued
  rw [queued]
  exact ⟨List.mem_cons_self, h.newJob master false⟩

omit [Workshop σ] in
/-- What held a master before a step that only changes jobs in place or takes them away. -/
theorem Holds.of_sub {m : Path} (h : d.Holds m) (pending : d.pending = c.pending)
    (sub : ∀ j ∈ d.jobs, ∃ k ∈ c.jobs, k.path = j.path) : c.Holds m := by
  refine h.imp (fun waits => pending ▸ waits) ?_
  rintro ⟨j, hj, mine⟩
  obtain ⟨k, hk, same⟩ := sub j hj
  exact ⟨k, hk, by rwa [same]⟩

omit [Workshop σ] in
/-- A master that waits anew is not saved yet. -/
theorem Covered.push (h : c.Covered p) {stage : Stage} (x : Path) :
    ({ c with
      pending := (c.pending.push x).2, stage, saved := c.saved && !(c.pending.push x).1 } :
        Desk σ).Covered p := by
  intro saved m holds
  simp only [Bool.and_eq_true, Bool.not_eq_true'] at saved
  refine h saved.1 m (holds.imp_left fun waits => ?_)
  cases known : c.pending.contains x with
  | true => rwa [Pending.push_known known] at waits
  | false => simp [Pending.push_new known] at saved

theorem step_covered (step : Step R c d) (sane : c.Sane) (aimed : c.Aimed g)
    (kept : c.options.statePath = some p) (calm : Undisturbed p g d.trace)
    (h : c.Covered p) : d.Covered p := by
  have before := calm.suffix (step_grows step)
  intro saved m holds
  cases step with
  | tell event quiet =>
    have silent : ∀ x ∈ [event], x.writtenTo? p = none := by
      simp only [List.mem_singleton]
      rintro x rfl
      cases x <;> first | rfl | cases quiet
    exact (h saved m holds).append _ silent
  | save q kept' =>
    cases kept.symm.trans kept'
    exact save_resumes p sane.valid holds
  | refuse => exact absurd List.mem_cons_self calm.accepted
  | unkept none_ => cases kept.symm.trans none_
  | queue => cases saved
  | start j now wall launch =>
    refine (h saved m (holds.of_sub rfl ?_)).append _ Launch.writes_none
    intro k hk
    obtain ⟨x, hx, rfl⟩ := List.mem_map.mp hk
    exact ⟨x, hx, by split <;> rfl⟩
  | finish id j o now =>
    refine h saved m (holds.of_sub rfl ?_)
    intro k hk
    obtain ⟨x, hx, rfl⟩ := List.mem_map.mp hk
    exact ⟨x, hx, by split <;> rfl⟩
  | collect | fire | restrict | edit =>
    exact (h saved m holds).append [_] (by simp [Event.writtenTo?])
  | abandon =>
    refine (h saved m (holds.of_sub rfl ?_)).append [_] (by simp [Event.writtenTo?])
    exact fun k hk => ⟨k, (List.mem_filter.mp hk).1, rfl⟩
  | @drain e =>
    obtain ⟨deeds, graph, site, said, -, -, same⟩ := e.applyBatch_desk .due true
    rw [same] at holds ⊢
    have silent := deeds_write_none aimed before said
    -- No job is left, so what holds the master now is that it waits, as it did before.
    have waits : (e.desk .steady true).Holds m :=
      holds.imp_right fun ⟨k, hk, _⟩ => absurd hk List.not_mem_nil
    refine (h rfl m waits).append (.drained e.batchJobs e.applyBatch.1 :: deeds) ?_
    intro event hevent
    rcases List.mem_cons.mp hevent with rfl | hevent
    · rfl
    · exact silent event hevent
  | drop =>
    refine (h saved m (holds.of_sub rfl ?_)).append _ ?_
    · exact fun k hk => ⟨k, (List.mem_filter.mp hk).1, rfl⟩
    · intro event hevent
      obtain ⟨k, _, rfl⟩ := List.mem_map.mp (List.mem_reverse.mp hevent)
      rfl
  | park x => exact h.push x saved m holds
  | putBack => exact h.push _ saved m holds
  | take =>
    exact h saved m (holds.imp_left fun waits => absurd waits (by simp [Pending.contains]))
  | _ => exact h saved m holds

/-- Where a snapshot is kept, everything that was saved is resumed, and no job aims at it. -/
structure Secured (p : Path) (g : FileGraph) (d : Desk σ) : Prop where
  kept : d.options.statePath = some p
  sane : d.Sane
  aimed : d.Aimed g
  covered : d.Covered p

theorem step_secured (step : Step R c d) (calm : Undisturbed p g d.trace) (h : c.Secured p g) :
    d.Secured p g :=
  ⟨step_options step ▸ h.kept, step_sane step h.sane, step_aimed step h.aimed,
    step_covered step h.sane h.aimed h.kept calm h.covered⟩

theorem course_secured (course : Course R c d) (calm : Undisturbed p g d.trace)
    (h : c.Secured p g) : d.Secured p g := by
  induction course with
  | refl => exact h
  | tail _ step ih => exact step_secured step calm (ih (calm.suffix (step_grows step)))

end Desk

namespace Engine

variable {σ : Type} [Workshop σ] {p : Path} {g : FileGraph}

theorem look_place (e : Engine σ) (a : Act σ) : (e.look a).graph.place = e.graph.place :=
  look_graph (P := fun h => h.place = e.graph.place) (fun p _ => FileGraph.refresh_place _ _ p)
    (FileGraph.rebuild_place _ _) rfl

theorem look_secured {e : Engine σ} (h : (e.desk .steady true).Secured p g) (a : Act σ) :
    ((e.look a).desk .steady true).Secured p g := by
  have place : (e.look a).graph.place = g.place := (e.look_place a).trans h.aimed.place
  have sane := look_sane h.sane a
  obtain ⟨graph, site, events, quiet, same⟩ := e.look_desk .steady a
  refine ⟨?_, sane, ⟨place, ?_⟩, ?_⟩ <;> rw [same]
  · exact h.kept
  · exact fun j hj => (h.aimed.jobs j hj).imp_left (List.mem_append_right _)
  · intro saved m holds
    refine (h.covered rfl m holds).append _ fun event hevent => ?_
    have := quiet event hevent
    cases event <;> first | rfl | cases this

omit [Workshop σ] in
theorem fresh_secured {options : EngineOptions} (kept : options.statePath = some p) (site : σ)
    (dawn : Nat) : ((fresh g options site dawn).desk .steady true).Secured p g := by
  refine ⟨kept, fresh_sane g options site dawn, ⟨rfl, by simp [desk, fresh]⟩, ?_⟩
  intro _ m holds
  rcases holds with waits | ⟨j, hj, _⟩
  · simp [desk, fresh, Pending.contains] at waits
  · cases hj

/-- Between calls everything that waits or is active is resumed by the last snapshot. -/
theorem act_secured {e : Engine σ} {a : Act σ} (calm : Undisturbed p g (e.act a).trace)
    (h : (e.desk .steady true).Secured p g) : ((e.act a).desk .steady true).Secured p g :=
  Desk.course_secured (act_course Rules.free_lenient (e.allows_free a)) calm (look_secured h a)

theorem run_secured (acts : List (Act σ)) {e : Engine σ}
    (calm : Undisturbed p g (e.run acts).trace) (h : (e.desk .steady true).Secured p g) :
    ((e.run acts).desk .steady true).Secured p g := by
  induction acts generalizing e with
  | nil => exact h
  | cons a rest ih => exact ih calm (act_secured (calm.suffix ((e.act a).run_grows rest)) h)

end Engine

end StoryBuild
