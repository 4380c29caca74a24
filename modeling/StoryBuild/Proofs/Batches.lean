import StoryBuild.Proofs.Scheduling

namespace StoryBuild.Engine

variable {σ : Type} [Workshop σ] {mayQueue mayRestrict : Core → Prop}

theorem writeArtifact_core (e : Engine σ) (j : Job) :
    ∃ produced : List Nat, (∀ i ∈ produced, i = j.id) ∧
      (e.writeArtifact j).2.2.core =
        { e.core with story := produced.map Event.produced ++ e.story } := by
  unfold writeArtifact
  split
  next => exact ⟨[], by simp, rfl⟩
  next content _ =>
    dsimp only
    split
    next site _ => exact ⟨[j.id], by simp, rfl⟩
    next cause site _ => exact ⟨[], by simp, error_core { e with site } _⟩

/-- What the record of one job comes to: the artifact, then the graph. -/
theorem applyJob_rest (s : Summary) (e : Engine σ) (j : Job) :
    (applyJob (s, e) j).2.graph =
        e.graph.applyOutcome j.path (Diagnostic.ofLines j.lines)
          (j.unhandled ++ (e.writeArtifact j).2.1) (e.writeArtifact j).1
          (e.writeArtifact j).2.2.wall ∧
      (applyJob (s, e) j).2.site = (e.writeArtifact j).2.2.site := by
  have graph : (e.writeArtifact j).2.2.graph = e.graph := by
    unfold writeArtifact
    split
    next => rfl
    next => split <;> rfl
  rw [← graph]
  unfold applyJob
  dsimp only
  split <;> exact ⟨rfl, rfl⟩

theorem applyJob_core (s : Summary) (e : Engine σ) (j : Job) :
    (applyJob (s, e) j).1.compiled = s.compiled ++ [j.path] ∧
      ∃ produced : List Nat, (∀ i ∈ produced, i = j.id) ∧
        (applyJob (s, e) j).2.core =
          { e.core with story := produced.map Event.produced ++ e.story } := by
  obtain ⟨produced, only, hw⟩ := e.writeArtifact_core j
  refine ⟨rfl, produced, only, ?_⟩
  rw [← hw]
  unfold applyJob
  dsimp only
  rw [note_core rfl, graph_core]
  split
  next => rw [logAll_core, logAll_core]
  next => rw [logAll_core]

/-- The jobs are recorded one by one; each can leave an artifact. -/
theorem applyJobs_core (jobs : List Job) (s : Summary) (e : Engine σ) :
    (jobs.foldl applyJob (s, e)).1.compiled = s.compiled ++ jobs.map Job.path ∧
      ∃ produced : List Nat, (∀ i ∈ produced, i ∈ jobs.map Job.id) ∧
        (jobs.foldl applyJob (s, e)).2.core =
          { e.core with story := produced.map Event.produced ++ e.story } := by
  induction jobs generalizing s e with
  | nil => exact ⟨by simp, [], by simp, rfl⟩
  | cons j rest ih =>
    obtain ⟨hc, produced, only, hs⟩ := applyJob_core s e j
    obtain ⟨hcs, later, from_rest, hss⟩ := ih (applyJob (s, e) j).1 (applyJob (s, e) j).2
    refine ⟨?_, later ++ produced, ?_, ?_⟩
    · rw [List.foldl_cons, hcs, hc]
      simp
    · intro i hi
      rcases List.mem_append.mp hi with hi | hi
      · exact List.mem_cons_of_mem _ (from_rest i hi)
      · simp [only i hi]
    · rw [List.foldl_cons, hss]
      have story := congrArg Core.story hs
      change (applyJob (s, e) j).2.story = _ at story
      rw [hs, story]
      simp

theorem applyBatch_core (e : Engine σ) :
    ∃ produced : List Nat, (∀ i ∈ produced, i ∈ e.core.batch.map Job.id) ∧
      e.applyBatch.1.compiled = e.core.batch.map Job.path ∧
      e.applyBatch.2.core =
        { e.core with
          jobs := []
          abandoned := []
          story := .drained e.core.batch e.applyBatch.1 ::
            (produced.map Event.produced ++ e.story) } := by
  obtain ⟨hc, produced, from_batch, hs⟩ :=
    applyJobs_core e.batchJobs {} { e with jobs := [], abandoned := [] }
  refine ⟨produced, from_batch, hc, ?_⟩
  have story := congrArg Core.story hs
  rw [core_story] at story
  have noted (d : Engine σ) (s : Summary) : (d.note (.drained e.batchJobs s)).core =
      { d.core with story := .drained e.batchJobs s :: d.story } := rfl
  change ((e.batchJobs.foldl applyJob ({}, { e with jobs := [], abandoned := [] })).2.note
    (.drained e.batchJobs e.applyBatch.1)).core = _
  rw [noted, story, hs]
  rfl

theorem applyBatch_steps (e : Engine σ) :
    Core.Steps mayQueue mayRestrict e.core e.applyBatch.2.core := by
  obtain ⟨produced, from_batch, hc, hs⟩ := e.applyBatch_core
  rw [hs]
  exact .single (.drain e.applyBatch.1 produced from_batch hc)

theorem applyBatch_idle (e : Engine σ) :
    e.applyBatch.2.core.jobs = [] ∧ e.applyBatch.2.core.abandoned = [] := by
  obtain ⟨produced, _, _, hs⟩ := e.applyBatch_core
  rw [hs]
  exact ⟨rfl, rfl⟩

omit [Workshop σ] in
/-- A deferred entry is made good only when the batch is over. -/
theorem replayEntry_steps {e : Engine σ} (s : Summary) (may : mayRestrict e.core) :
    Core.Steps mayQueue mayRestrict e.core (e.replayEntry s).core := by
  unfold replayEntry
  split
  next =>
    dsimp only
    split
    next =>
      rw [warn_core]
      exact .refl
    next =>
      rw [tell_core]
      exact .single (.restrict may)
  next => exact .refl

theorem endBatch_steps (e : Engine σ)
    (may : ∀ c : Core, c.jobs = [] → c.abandoned = [] → mayRestrict c) :
    Core.Steps mayQueue mayRestrict e.core e.endBatch.2.core := by
  let told := e.applyBatch.2.persist.releaseHost.tell (.stackCompleted e.applyBatch.1)
  have same : told.core = e.applyBatch.2.core := by
    rw [tell_core, releaseHost_core, persist_core]
  obtain ⟨nojobs, noabandoned⟩ := e.applyBatch_idle
  have replay : Core.Steps mayQueue mayRestrict told.core
      (told.replayEntry e.applyBatch.1).core :=
    replayEntry_steps _ (by rw [same]; exact may _ nojobs noabandoned)
  rw [same] at replay
  exact e.applyBatch_steps.trans replay

/-- After the end of a batch, the waiting masters are taken up. -/
theorem closeBatch_onward (e : Engine σ) (now : Nat)
    (mayQ : ∀ c : Core, c.mode = .editing → mayQueue c) :
    Core.Steps mayQueue mayRestrict e.endBatch.2.core (e.closeBatch now).2.core := by
  unfold closeBatch
  dsimp only
  split
  next h =>
    simp only [Bool.and_eq_true, beq_iff_eq] at h
    exact promote_steps now h.1 mayQ
  next => exact .refl

theorem closeBatch_steps (e : Engine σ) (now : Nat)
    (mayQ : ∀ c : Core, c.mode = .editing → mayQueue c)
    (mayR : ∀ c : Core, c.jobs = [] → c.abandoned = [] → mayRestrict c) :
    Core.Steps mayQueue mayRestrict e.core (e.closeBatch now).2.core :=
  (endBatch_steps e mayR).trans (closeBatch_onward e now mayQ)

theorem collect_steps (e : Engine σ) (now : Nat) :
    Core.Steps mayQueue mayRestrict e.core (e.collect now).core := by
  unfold collect
  split
  next => exact .refl
  next w h =>
    have free : Core.Step mayQueue mayRestrict e.core
        ({ e with inFlight := none }.note (.collected w.job)).core :=
      .collect w.job (by simp [core, h])
    dsimp only
    split
    next => exact .refl
    next o _ => exact .head free (finishJob_steps _ _ o now)
    next => exact .head free (finishJob_steps_of_core (error_core _ _) _ _ now)

theorem abandon_core (e : Engine σ) (j : Job) (now : Nat) :
    ∃ given : Job, given.id = j.id ∧ given.path = j.path ∧
      (e.abandon j now).core =
        { (e.cancelJob j).core with
          jobs := e.jobs.filter fun k => !(k.id == j.id)
          abandoned := (e.cancelJob j).abandoned ++ [given] } := by
  refine ⟨{ j.complete now with
    lines := e.partialLines j
    unhandled := j.unhandled ++ [e.timeoutMessage j (e.partialLines j)]
    artifact := none }, rfl, rfl, ?_⟩
  let left : Engine σ :=
    { e.cancelJob j with jobs := e.jobs.filter fun k => !(k.id == j.id) }
  have same := left.error_core "compile timed out; abandoning job"
  unfold abandon
  refine (persist_core _).trans ((withAbandoned_core (left.error _) _).trans ?_)
  rw [same, abandoned_eq_of_core same]
  rfl

theorem abandon_steps {e : Engine σ} {j : Job} (now : Nat)
    (h : e.jobs.find? Job.isCompiling = some j) :
    Core.Steps mayQueue mayRestrict e.core (e.abandon j now).core := by
  have found : (e.cancelJob j).core.jobs.find? Job.isCompiling = some j := by
    rw [core_jobs, cancelJob_jobs]
    exact h
  obtain ⟨given, id, path, same⟩ := e.abandon_core j now
  rw [same, ← cancelJob_jobs e j]
  exact (e.cancelJob_steps j).tail (.abandon j given found id path)

theorem expire_steps (e : Engine σ) (now : Nat) :
    Core.Steps mayQueue mayRestrict e.core (e.expire now).2.2.core := by
  unfold expire
  split
  next => exact .refl
  next j h =>
    split
    next => exact (abandon_steps now h).trans (drain_steps _ now)
    next => exact .refl

theorem advance_steps (e : Engine σ) (now : Nat) :
    Core.Steps mayQueue mayRestrict e.core (e.advance now).2.core := by
  unfold advance
  split
  next => exact drain_steps e now
  next => exact .refl

section Waits

variable {P : Engine σ → Prop} (look : ∀ {d}, P d → P d.breatheAndPoll)
  (pass : ∀ {d}, P d → P d.passTime)

include look pass

/-- What looks and the passing of time preserve, a wait preserves. -/
theorem waitFor_preserves (id steps : Nat) {e : Engine σ} (h : P e) : P (waitFor id steps e) := by
  induction steps generalizing e with
  | zero => exact look h
  | succ steps ih =>
    unfold waitFor
    split
    next => exact look h
    next =>
      dsimp only
      split
      next => exact ih (look h)
      next => exact ih (pass (look h))

theorem enqueueAt_preserves {e : Engine σ} {master : Path} {immediate : Bool} {now : Nat}
    (submitted : P (e.submit master immediate now).2) :
    P (e.enqueueAt master immediate now).2 := by
  unfold enqueueAt
  split
  next answer => rwa [answer] at submitted
  next answer =>
    rw [answer] at submitted
    dsimp only
    split
    next => exact waitFor_preserves (P := P) look pass _ _ submitted
    next => exact submitted

end Waits

section Looks

variable (mayQ : ∀ c : Core, c.mode = .editing → mayQueue c)
  (mayR : ∀ c : Core, c.jobs = [] → c.abandoned = [] → mayRestrict c)

include mayQ mayR

theorem settle_steps (e : Engine σ) (now : Nat) :
    Core.Steps mayQueue mayRestrict e.core (e.settle now).2.core := by
  unfold settle
  split
  next => exact closeBatch_steps e now mayQ mayR
  next => exact .refl

theorem pollAt_steps (e : Engine σ) (now : Nat) :
    Core.Steps mayQueue mayRestrict e.core (e.pollAt now).2.core :=
  (collect_steps e now).trans <| (expire_steps _ now).trans <|
    (advance_steps _ now).trans (settle_steps mayQ mayR _ now)

theorem breatheAndPoll_steps (e : Engine σ) :
    Core.Steps mayQueue mayRestrict e.core e.breatheAndPoll.core := by
  rw [← e.breathe_core]
  exact pollAt_steps mayQ mayR _ _

theorem waitFor_steps (id steps : Nat) (e : Engine σ) :
    Core.Steps mayQueue mayRestrict e.core (waitFor id steps e).core :=
  waitFor_preserves (P := fun d => Core.Steps mayQueue mayRestrict e.core d.core)
    (fun h => h.trans (breatheAndPoll_steps mayQ mayR _)) (fun h => by rwa [passTime_core])
    id steps .refl

/-- Where a request for a compile is accepted, jobs must be allowed. -/
theorem enqueueAt_steps {e : Engine σ} {master : Path} (immediate : Bool) (now : Nat)
    (may : e.refusal? master = none → mayQueue e.core) :
    Core.Steps mayQueue mayRestrict e.core (e.enqueueAt master immediate now).2.core :=
  enqueueAt_preserves (P := fun d => Core.Steps mayQueue mayRestrict e.core d.core)
    (fun h => h.trans (breatheAndPoll_steps mayQ mayR _)) (fun h => by rwa [passTime_core])
    (submit_steps immediate now may)

end Looks

end StoryBuild.Engine
