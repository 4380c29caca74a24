import StoryBuild.Proofs.Core

namespace StoryBuild.Engine

variable {σ : Type} {mayQueue mayRestrict : Core → Prop}

open Relation (ReflTransGen)

theorem cancelWorker_core {e : Engine σ} {w : Worker} (h : e.inFlight = some w) :
    e.cancelWorker.core = { e.core with worker := none, story := .fired w.job :: e.story } := by
  have hs : ({ e with inFlight := none }.note (.fired w.job)).core =
      { e.core with worker := none, story := .fired w.job :: e.story } := rfl
  simp only [cancelWorker, h]
  split
  next => exact hs
  next => exact (note_core rfl).trans hs
  next => exact hs

theorem cancelWorker_idle {e : Engine σ} (h : e.inFlight = none) : e.cancelWorker = e := by
  simp [cancelWorker, h]

theorem cancelWorker_steps (e : Engine σ) :
    Core.Steps mayQueue mayRestrict e.core e.cancelWorker.core := by
  cases h : e.inFlight with
  | none =>
    rw [cancelWorker_idle h]
  | some w =>
    rw [cancelWorker_core h]
    exact .single (.fire w.job (by simp [core, h]))

theorem cancelWorker_jobs (e : Engine σ) : e.cancelWorker.jobs = e.jobs := by
  cases h : e.inFlight with
  | none => rw [cancelWorker_idle h]
  | some w => rw [← core_jobs, cancelWorker_core h, core_jobs]

theorem cancelJob_steps (e : Engine σ) (j : Job) :
    Core.Steps mayQueue mayRestrict e.core (e.cancelJob j).core := by
  unfold cancelJob
  split
  next => exact e.cancelWorker_steps
  next => exact .refl

theorem cancelJob_jobs (e : Engine σ) (j : Job) : (e.cancelJob j).jobs = e.jobs := by
  unfold cancelJob
  split
  next => exact e.cancelWorker_jobs
  next => rfl

theorem request_ids [Storage σ] {e : Engine σ} {j : Job} {r : Request}
    (h : e.request j = .ok r) : r.job = j.id ∧ r.master = j.path := by
  unfold request at h
  cases hs : Storage.readText e.site j.input with
  | error cause => simp [hs, Except.map] at h
  | ok source =>
    simp only [hs, Except.map, Except.ok.injEq] at h
    subst h
    exact ⟨rfl, rfl⟩

theorem runHere_core [Workshop σ] (e : Engine σ) (r : Request) :
    (e.runHere r).2.core =
      { e.core with
        story := .collected r.job :: .called r.job r.master :: .begun r.job :: e.story } := by
  unfold runHere
  dsimp only
  split <;> rfl

theorem loseWorker_core (e : Engine σ) (r : Request) :
    (e.loseWorker r).core =
      { e.core with worker := some r.job, story := .begun r.job :: e.story } := rfl

theorem sendWorker_core [Workshop σ] (e : Engine σ) (r : Request) :
    (e.sendWorker r).core =
      { e.core with
        worker := some r.job
        story := .called r.job r.master :: .begun r.job :: e.story } := rfl

section Jobs

variable [Workshop σ]

/-- The ways in which a job is started. It fails at once, since its source cannot be read or no
worker can be had; it is compiled on the calling thread; or its worker is lost or sent. -/
theorem startJob_cases {P : Engine σ → Prop} (e : Engine σ) (j : Job) (now : Nat)
    (failed : ∀ message,
      ((∃ cause, e.request j = .error cause ∧ cause.message = message) ∨
        ∃ r reason, e.request j = .ok r ∧ j.immediate = false ∧
          Workshop.handOver e.site r = .refused reason) →
      P ((e.markStarted j now).finishJob j.id (failedOutcome message) now))
    (here_ : ∀ r, e.request j = .ok r → j.immediate = true →
      P (((e.markStarted j now).runHere r).2.finishJob j.id ((e.markStarted j now).runHere r).1
        ((e.markStarted j now).runHere r).2.clock))
    (lost : ∀ r, e.request j = .ok r → j.immediate = false →
      Workshop.handOver e.site r = .lost → P ((e.markStarted j now).loseWorker r).persist)
    (sent : ∀ r, e.request j = .ok r → j.immediate = false →
      Workshop.handOver e.site r = .taken → P ((e.markStarted j now).sendWorker r).persist) :
    P (e.startJob j now) := by
  unfold startJob
  dsimp only
  split
  next cause unread => exact failed _ (.inl ⟨cause, unread, rfl⟩)
  next r read =>
    split
    next immediate => exact here_ r read immediate
    next immediate =>
      have away : j.immediate = false := by simpa using immediate
      unfold dispatch
      cases handed : Workshop.handOver (e.markStarted j now).site r with
      | refused reason => exact failed _ (.inr ⟨r, reason, read, away, handed⟩)
      | lost => exact lost r read away handed
      | taken => exact sent r read away handed

omit [Workshop σ] in
theorem markStarted_core {e : Engine σ} (free : e.inFlight = none) (j : Job) (now : Nat) :
    (e.markStarted j now).core =
      { e.core with
        jobs := e.jobs.map fun k => if k.id == j.id then k.start now e.wall else k
        worker := none
        story := .started j.id :: e.story } := by
  have out : e.core.worker = none := by simp [core, free]
  rw [← out]
  rfl

theorem finishJob_idle {e : Engine σ} {id : Nat}
    (h : e.jobs.find? (fun j => j.id == id && j.isCompiling) = none) (o : Outcome) (now : Nat) :
    e.finishJob id o now = e := by
  simp only [finishJob, h]

theorem finishJob_core {e : Engine σ} {id : Nat} {j : Job}
    (h : e.jobs.find? (fun j => j.id == id && j.isCompiling) = some j) (o : Outcome) (now : Nat) :
    (e.finishJob id o now).core =
      { e.core with jobs := e.jobs.map fun k => if k.id == id then k.finish o now else k } := by
  simp only [finishJob, h, persist_core]
  split
  next => exact warn_core _ _
  next => rfl

theorem finishJob_steps (e : Engine σ) (id : Nat) (o : Outcome) (now : Nat) :
    Core.Steps mayQueue mayRestrict e.core (e.finishJob id o now).core := by
  cases h : e.jobs.find? (fun j => j.id == id && j.isCompiling) with
  | none => rw [finishJob_idle h]
  | some j =>
    rw [finishJob_core h]
    exact .single (.finish id j o now h)

theorem finishJob_steps_of_core {e d : Engine σ} (h : d.core = e.core) (id : Nat) (o : Outcome)
    (now : Nat) : Core.Steps mayQueue mayRestrict e.core (d.finishJob id o now).core := by
  rw [← h]
  exact d.finishJob_steps id o now

/-- A queued job is started from a core at rest: it is set going, or it ends at once. -/
theorem startJob_steps {e : Engine σ} {j : Job} (now : Nat) (idle : e.isCompiling = false)
    (free : e.inFlight = none) (first : e.jobs.find? Job.isQueued = some j) :
    Core.Steps mayQueue mayRestrict e.core (e.startJob j now).core := by
  have out : e.core.worker = none := by simp [core, free]
  have go (launch : Launch) : Core.Step mayQueue mayRestrict e.core _ :=
    .start j now e.wall launch idle out first
  have begun := markStarted_core free j now
  refine startJob_cases (P := fun d => Core.Steps mayQueue mayRestrict e.core d.core) e j now
    (fun message _ => ?_) (fun r read _ => ?_) (fun r read _ _ => ?_) (fun r read _ _ => ?_)
  · refine .head ?_ (finishJob_steps _ _ _ _)
    rw [begun]
    exact go .failed
  · refine .head ?_ (finishJob_steps _ _ _ _)
    rw [runHere_core, begun, (request_ids read).1]
    exact go (.here r.master)
  · refine .single ?_
    rw [persist_core, loseWorker_core, begun, (request_ids read).1]
    exact go .lost
  · refine .single ?_
    rw [persist_core, sendWorker_core, begun, (request_ids read).1]
    exact go (.away r.master)

/-- What the start of a job preserves, while nothing is being compiled, all starts preserve. -/
theorem drain_preserves {P : Engine σ → Prop} {now : Nat}
    (start : ∀ {d : Engine σ} {j : Job}, d.isCompiling = false → d.inFlight = none →
      d.jobs.find? Job.isQueued = some j → P d → P (d.startJob j now))
    {e : Engine σ} (h : P e) : P (e.drain now).2 := by
  have loop (steps : Nat) {e : Engine σ} (h : P e) : P (drainLoop steps e now).2 := by
    induction steps generalizing e with
    | zero => exact h
    | succ steps ih =>
      unfold drainLoop
      split
      next => exact h
      next rest =>
        simp only [Bool.or_eq_true, not_or, Bool.not_eq_true, Option.isSome_eq_false_iff,
          Option.isNone_iff_eq_none] at rest
        split
        next => exact h
        next first => exact ih (start rest.1 rest.2 first h)
  exact loop _ h

theorem drain_steps (e : Engine σ) (now : Nat) :
    Core.Steps mayQueue mayRestrict e.core (e.drain now).2.core :=
  drain_preserves (P := fun d => Core.Steps mayQueue mayRestrict e.core d.core)
    (fun idle free first h => h.trans (startJob_steps now idle free first)) .refl

theorem persist_mode (e : Engine σ) : e.persist.mode = e.mode :=
  mode_eq_of_core e.persist_core

theorem finishJob_mode (e : Engine σ) (id : Nat) (o : Outcome) (now : Nat) :
    (e.finishJob id o now).mode = e.mode := by
  cases h : e.jobs.find? (fun j => j.id == id && j.isCompiling) with
  | none => rw [finishJob_idle h]
  | some j => rw [← core_mode, finishJob_core h, core_mode]

theorem startJob_mode (e : Engine σ) (j : Job) (now : Nat) :
    (e.startJob j now).mode = e.mode := by
  refine startJob_cases (P := fun d => d.mode = e.mode) e j now (fun _ _ => ?_) (fun r _ _ => ?_)
    (fun _ _ _ _ => ?_) (fun _ _ _ _ => ?_)
  · exact finishJob_mode _ _ _ _
  · rw [finishJob_mode, ← core_mode, runHere_core]
    rfl
  · exact persist_mode _
  · exact persist_mode _

theorem drain_mode (e : Engine σ) (now : Nat) : (e.drain now).2.mode = e.mode :=
  drain_preserves (P := fun d => d.mode = e.mode)
    (fun _ _ _ h => (startJob_mode _ _ now).trans h) rfl

omit [Workshop σ] in
theorem refusal_none {e : Engine σ} {master : Path} (h : e.refusal? master = none) :
    ∀ k ∈ e.jobs, (k.path == master) = false := by
  unfold refusal? at h
  split at h
  next => simp at h
  next =>
    split at h
    next => simp at h
    next =>
      split at h
      next => simp at h
      next active => simpa [hasActiveJob] using active

omit [Workshop σ] in
theorem noteRefusal_core (e : Engine σ) (refusal : RequestError) :
    (e.noteRefusal refusal).core = e.core := by
  cases refusal with
  | alreadyQueued p => exact e.warn_core _
  | _ => rfl

theorem addJob_core (e : Engine σ) (master : Path) (immediate : Bool) :
    (e.addJob master immediate).core =
      { e.core with
        jobs := e.jobs ++ [e.newJob master immediate]
        nextId := e.nextId + 1
        story := .queued e.nextId master :: e.story } := by
  have hs := e.suspendHost_core
  have hj : e.suspendHost.jobs = e.jobs := jobs_eq_of_core hs
  have hn : e.suspendHost.nextId = e.nextId := by rw [← core_nextId, hs, core_nextId]
  unfold addJob
  rw [persist_core]
  change { e.suspendHost.core with
    jobs := e.suspendHost.jobs ++ [e.newJob master immediate]
    nextId := e.suspendHost.nextId + 1
    story := .queued e.nextId master :: e.suspendHost.core.story : Core } = _
  rw [hs, hj, hn]
  rfl

theorem addJob_story (e : Engine σ) (master : Path) (immediate : Bool) :
    (e.addJob master immediate).story = .queued e.nextId master :: e.story := by
  rw [← core_story, addJob_core]

theorem addJob_steps {e : Engine σ} {master : Path} (immediate : Bool) (may : mayQueue e.core)
    (h : e.refusal? master = none) :
    Core.Steps mayQueue mayRestrict e.core (e.addJob master immediate).core := by
  rw [addJob_core]
  exact .single (.queue (e.newJob master immediate) may rfl rfl (refusal_none h))

theorem submit_steps {e : Engine σ} {master : Path} (immediate : Bool) (now : Nat)
    (may : e.refusal? master = none → mayQueue e.core) :
    Core.Steps mayQueue mayRestrict e.core (e.submit master immediate now).2.core := by
  unfold submit
  split
  next refusal _ =>
    rw [noteRefusal_core]
  next h => exact (addJob_steps immediate (may h) h).trans (drain_steps _ now)

theorem submit_mode (e : Engine σ) (master : Path) (immediate : Bool) (now : Nat) :
    (e.submit master immediate now).2.mode = e.mode := by
  unfold submit
  split
  next refusal _ => exact mode_eq_of_core (noteRefusal_core e refusal)
  next =>
    refine (drain_mode _ now).trans ?_
    rw [← core_mode, addJob_core, core_mode]

/-- What a request for each of them preserves, the promotion of the waiting masters preserves,
unless it goes by the masters that wait. -/
theorem promote_preserves {P : Engine σ → Prop} {now : Nat}
    (wait : ∀ {d : Engine σ} (pending : Pending), P d → P { d with pending })
    (tell : ∀ {d : Engine σ} (masters : List Path), P d → P (d.note (.toCome masters)))
    (submit : ∀ {d : Engine σ} (master : Path), P d → P (d.submit master false now).2)
    (save : ∀ {d : Engine σ}, P d → P d.persist) {e : Engine σ} (h : P e) : P (e.promote now) := by
  have loop (paths : List Path) {e : Engine σ} (h : P e) : P (promoteAll now paths e) := by
    induction paths generalizing e with
    | nil => exact h
    | cons p left ih =>
      refine ih ?_
      unfold promoteOne
      split
      next => exact wait _ (tell left h)
      next => exact submit p (tell left h)
  have taken := tell e.pending.order (wait {} h)
  unfold promote
  dsimp only
  split
  next => exact taken
  next => exact save (loop _ taken)

/-- Masters that wait become jobs while sources are edited. -/
theorem promote_steps {e : Engine σ} (now : Nat) (editing : e.mode = .editing)
    (may : ∀ c : Core, c.mode = .editing → mayQueue c) :
    Core.Steps mayQueue mayRestrict e.core (e.promote now).core := by
  have still : (e.promote now).mode = .editing ∧
      Core.Steps mayQueue mayRestrict e.core (e.promote now).core := by
    refine promote_preserves
      (P := fun d => d.mode = .editing ∧ Core.Steps mayQueue mayRestrict e.core d.core)
      (fun _ h => h) (fun {d} masters h => ?_) (fun {d} master h => ?_) (fun {d} h => ?_)
      ⟨editing, .refl⟩
    · exact ⟨h.1, by rw [note_core rfl]; exact h.2⟩
    · exact ⟨(d.submit_mode master false now).trans h.1,
        h.2.trans (submit_steps false now fun _ => may _ h.1)⟩
    · rwa [persist_mode, persist_core]
  exact still.2

end Jobs

end StoryBuild.Engine
