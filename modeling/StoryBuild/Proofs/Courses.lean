import StoryBuild.Proofs.Desk

namespace StoryBuild.Engine

variable {σ : Type} [Workshop σ] {R : Rules} {stage : Stage}

open Relation (ReflTransGen)

theorem note_course {event : Event} (quiet : event.isQuiet = true) (e : Engine σ) (saved : Bool) :
    Desk.Course R (e.desk stage saved) ((e.note event).desk stage saved) :=
  .single (.tell event quiet)

theorem warn_course (e : Engine σ) (message : String) (saved : Bool) :
    Desk.Course R (e.desk stage saved) ((e.warn message).desk stage saved) :=
  note_course rfl e saved

theorem error_course (e : Engine σ) (message : String) (saved : Bool) :
    Desk.Course R (e.desk stage saved) ((e.error message).desk stage saved) :=
  note_course rfl e saved

theorem persist_course (may : stage.MaySave) (e : Engine σ) (saved : Bool) :
    Desk.Course R (e.desk stage saved) (e.persist.desk stage true) := by
  unfold persist
  split
  next none_ => exact .single (.unkept none_)
  next p kept =>
    dsimp only
    split
    next site written => exact .single (.save p kept may written)
    next cause site refused => exact .single (.refuse p kept refused)

theorem persist_if_course (may : stage.MaySave) (added : Bool) (e : Engine σ) :
    Desk.Course R (e.desk stage (!added)) ((if added then e.persist else e).desk stage true) := by
  cases added with
  | true => exact persist_course may e false
  | false => exact .refl

theorem releaseHost_course (e : Engine σ) (saved : Bool) :
    Desk.Course R (e.desk stage saved) (e.releaseHost.desk stage saved) := by
  unfold releaseHost
  split
  next => exact note_course rfl { e with suspended := false } saved
  next => exact .refl

theorem cancelWorker_course (e : Engine σ) (saved : Bool) :
    Desk.Course R (e.desk stage saved) (e.cancelWorker.desk stage saved) := by
  unfold cancelWorker
  split
  next => exact .refl
  next w h =>
    have out : (e.desk stage saved).worker = some w.job := by simp [desk, h]
    have fired : Desk.Step R (e.desk stage saved)
        (({ e with inFlight := none }.note (.fired w.job)).desk stage saved) := .fire w.job out
    dsimp only
    split
    next => exact .single fired
    next => exact .head fired (note_course rfl _ saved)
    next => exact .single fired

theorem cancelJob_course (e : Engine σ) (j : Job) (saved : Bool) :
    Desk.Course R (e.desk stage saved) ((e.cancelJob j).desk stage saved) := by
  unfold cancelJob
  split
  next => exact e.cancelWorker_course saved
  next => exact .refl

theorem breathe_course (e : Engine σ) (saved : Bool) :
    Desk.Course R (e.desk stage saved) (e.breathe.desk stage saved) := by
  unfold breathe
  split
  next r lines deaf next h =>
    have same : e.inFlight.map Worker.job = some r.job := by simp [h, Worker.job]
    refine .single ?_
    simp only [desk, same]
    exact .wander (.meanwhile r (.waiting lines deaf next))
  next => exact .refl

omit [Workshop σ] in
theorem passTime_desk (e : Engine σ) (saved : Bool) :
    e.passTime.desk stage saved = e.desk stage saved := by
  unfold passTime
  split
  next => rfl
  next => split <;> rfl

theorem finishJob_course (may : stage.MaySave) (e : Engine σ) (id : Nat) (o : Outcome) (now : Nat) :
    Desk.Course R (e.desk stage true) ((e.finishJob id o now).desk stage true) := by
  unfold finishJob
  split
  next => exact .refl
  next j found =>
    have finished : Desk.Step R (e.desk stage true)
        ((e.updateJob id fun j => j.finish o now).desk stage true) := .finish id j o now found
    refine .head finished ?_
    dsimp only
    split
    next => exact (warn_course _ _ true).trans (persist_course may _ true)
    next => exact persist_course may _ true

theorem runHere_desk (e : Engine σ) (r : Request) (saved : Bool) :
    (e.runHere r).2.desk stage saved =
      { e.desk stage saved with
        site := (Workshop.perform e.site r).2
        trace := .collected r.job :: .called r.job r.master :: .begun r.job :: e.trace } := by
  unfold runHere
  dsimp only
  split <;> rfl

omit [Workshop σ] in
theorem loseWorker_desk (e : Engine σ) (r : Request) (saved : Bool) :
    (e.loseWorker r).desk stage saved =
      { e.desk stage saved with worker := some r.job, trace := .begun r.job :: e.trace } := rfl

theorem sendWorker_desk (e : Engine σ) (r : Request) (saved : Bool) :
    (e.sendWorker r).desk stage saved =
      { e.desk stage saved with
        worker := some r.job
        site := (Workshop.perform e.site r).2
        trace := .called r.job r.master :: .begun r.job :: e.trace } := rfl

/-- A queued job is started from a desk at rest: it is set going, or it ends at once. -/
theorem startJob_course (may : stage.MaySave) {e : Engine σ} {j : Job} (now : Nat)
    (idle : e.isCompiling = false) (free : e.inFlight = none)
    (first : e.jobs.find? Job.isQueued = some j) :
    Desk.Course R (e.desk stage true) ((e.startJob j now).desk stage true) := by
  have out : (e.desk stage true).worker = none := by simp [desk, free]
  have go (launch : Launch) : Desk.Step R (e.desk stage true) _ :=
    .start j now e.wall launch idle out first
  have begun : (e.markStarted j now).desk stage true =
      { e.desk stage true with
        jobs := e.jobs.map fun k => if k.id == j.id then k.start now e.wall else k
        worker := none
        trace := .started j.id :: e.trace } := by
    rw [← out]
    rfl
  refine startJob_cases (P := fun d => Desk.Course R (e.desk stage true) (d.desk stage true)) e j
    now (fun message _ => ?_) (fun r read _ => ?_) (fun r read _ _ => ?_) (fun r read _ _ => ?_)
  · refine .trans ?_ (finishJob_course may _ _ _ _)
    rw [begun]
    exact .single (go .failed)
  · refine .trans ?_ (finishJob_course may _ _ _ _)
    rw [runHere_desk, begun, (request_ids read).1]
    exact .head (go (.here r.master)) (.single (.wander (.perform r)))
  · refine .trans ?_ (persist_course may _ true)
    rw [loseWorker_desk, begun, (request_ids read).1]
    exact .single (go .lost)
  · refine .trans ?_ (persist_course may _ true)
    rw [sendWorker_desk, begun, (request_ids read).1]
    exact .head (go (.away r.master)) (.single (.wander (.perform r)))

theorem drain_course (may : stage.MaySave) (e : Engine σ) (now : Nat) :
    Desk.Course R (e.desk stage true) ((e.drain now).2.desk stage true) :=
  drain_preserves (P := fun d => Desk.Course R (e.desk stage true) (d.desk stage true))
    (fun idle free first h => h.trans (startJob_course may now idle free first)) .refl

omit [Workshop σ] in
theorem isMaster_of_refusal_none {e : Engine σ} {master : Path} (h : e.refusal? master = none) :
    e.graph.isMaster master = true := by
  unfold refusal? at h
  unfold FileGraph.isMaster
  cases found : e.graph.file? master with
  | none => simp [found] at h
  | some f =>
    cases is_master : f.isMaster with
    | true => simp [is_master]
    | false => simp [found, is_master] at h

omit [Workshop σ] in
theorem active_of_alreadyQueued {e : Engine σ} {p master : Path}
    (h : e.refusal? p = some (.alreadyQueued master)) :
    ∃ k ∈ e.jobs, (k.path == master) = true := by
  unfold refusal? at h
  split at h
  next => simp at h
  next =>
    split at h
    next => simp at h
    next =>
      split at h
      next active =>
        obtain rfl : p = master := by simpa using h
        simpa [hasActiveJob] using active
      next => simp at h

omit [Workshop σ] in
/-- A master without an active job is accepted. -/
theorem refusal_none_of_free {e : Engine σ} {master : Path}
    (is_master : e.graph.isMaster master = true) (free : e.hasActiveJob master = false) :
    e.refusal? master = none := by
  unfold FileGraph.isMaster at is_master
  unfold refusal?
  cases found : e.graph.file? master with
  | none => simp [found] at is_master
  | some f =>
    simp only [found, Option.any_some] at is_master
    simp [is_master, free]

omit [Workshop σ] in
theorem refusal_of_active {e : Engine σ} {master : Path}
    (is_master : e.graph.isMaster master = true) (active : e.hasActiveJob master = true) :
    e.refusal? master = some (.alreadyQueued master) := by
  unfold FileGraph.isMaster at is_master
  unfold refusal?
  cases found : e.graph.file? master with
  | none => simp [found] at is_master
  | some f =>
    simp only [found, Option.any_some] at is_master
    simp [is_master, active]

theorem noteRefusal_course (e : Engine σ) (refusal : RequestError) (saved : Bool) :
    Desk.Course R (e.desk stage saved) ((e.noteRefusal refusal).desk stage saved) := by
  cases refusal with
  | alreadyQueued p => exact e.warn_course _ saved
  | _ => exact .refl

theorem addJob_course {e : Engine σ} {master : Path} {next : Stage} (immediate saved : Bool)
    (turn : stage.Queues master next) (may : R.queue e.core) (h : e.refusal? master = none) :
    Desk.Course R (e.desk stage saved) ((e.addJob master immediate).desk next true) := by
  have is_master := isMaster_of_refusal_none h
  have free := refusal_none h
  unfold addJob suspendHost
  refine .trans ?_ (persist_course turn.maySave _ false)
  dsimp only
  split
  next =>
    have told : Desk.Step R (e.desk stage saved) ((e.tell .suspend).desk stage saved) :=
      .tell (.host .suspend) rfl
    exact .head told (.single (.queue master immediate may is_master free turn))
  next => exact .single (.queue master immediate may is_master free turn)

theorem submit_course {e : Engine σ} {master : Path} {next : Stage} (immediate saved : Bool)
    (now : Nat) (turn : stage.Queues master next) (may : R.queue e.core)
    (h : e.refusal? master = none) :
    Desk.Course R (e.desk stage saved) ((e.submit master immediate now).2.desk next true) := by
  unfold submit
  rw [h]
  exact (addJob_course immediate saved turn may h).trans (drain_course turn.maySave _ now)

theorem submit_refused_course {e : Engine σ} {master : Path} {refusal : RequestError}
    (immediate saved : Bool) (now : Nat) (h : e.refusal? master = some refusal) :
    Desk.Course R (e.desk stage saved) ((e.submit master immediate now).2.desk stage saved) := by
  unfold submit
  rw [h]
  exact noteRefusal_course e refusal saved

variable (lenient : R.Lenient)

include lenient

/-- One waiting master is queued, goes on waiting behind its active job, or is forgotten. -/
theorem promoteOne_course {e : Engine σ} {p : Path} (left : List Path) (saved : Bool)
    (now : Nat) (editing : e.mode = .editing) :
    ∃ saved', Desk.Course R (e.desk (.facing p left) saved)
      ((promoteOne now e p).desk (.promoting left) saved') := by
  unfold promoteOne
  split
  next active =>
    have waits : ∃ k ∈ e.jobs, (k.path == p) = true := by simpa [hasActiveJob] using active
    exact ⟨_, .single (.putBack rfl waits)⟩
  next idle =>
    cases h : e.refusal? p with
    | none => exact ⟨true, submit_course false saved now .facing (lenient.queue _ editing) h⟩
    | some refusal =>
      -- Without an active job a path is refused only if it is no master.
      have gone : e.graph.isMaster p = false := by
        cases is_master : e.graph.isMaster p with
        | false => rfl
        | true =>
          have accepted := refusal_none_of_free is_master (by simpa using idle)
          rw [h] at accepted
          cases accepted
      have forgotten : Desk.Step R (e.desk (.facing p left) saved)
          (e.desk (.promoting left) saved) := .forget rfl gone
      exact ⟨saved, .head forgotten (submit_refused_course false saved now h)⟩

theorem promoteAll_course (paths : List Path) {e : Engine σ} (saved : Bool) (now : Nat)
    (editing : e.mode = .editing) :
    ∃ saved', Desk.Course R (e.desk (.promoting paths) saved)
      ((promoteAll now paths e).desk (.promoting []) saved') := by
  induction paths generalizing e saved with
  | nil => exact ⟨saved, .refl⟩
  | cons p left ih =>
    have turn : Desk.Step R (e.desk (.promoting (p :: left)) saved)
        ((e.note (.toCome left)).desk (.facing p left) saved) := .turn rfl
    obtain ⟨saved', first⟩ := promoteOne_course lenient (e := e.note (.toCome left)) (p := p) left
      saved now editing
    have still : (promoteOne now (e.note (.toCome left)) p).mode = .editing := by
      unfold promoteOne
      split
      next => exact editing
      next => exact (submit_mode _ p false now).trans editing
    obtain ⟨saved'', others⟩ := ih saved' still
    exact ⟨saved'', .head turn (first.trans others)⟩

/-- Masters that wait become jobs while sources are edited. -/
theorem promote_course {e : Engine σ} (now : Nat) (editing : e.mode = .editing) :
    Desk.Course R (e.desk .due true) ((e.promote now).desk .steady true) := by
  have taken : Desk.Step R (e.desk .due true)
      (({ e with pending := {} }.note (.toCome e.pending.order)).desk
        (.promoting e.pending.order) true) := .take rfl
  refine .head taken ?_
  unfold promote Pending.drain
  dsimp only
  split
  next none_ =>
    rw [List.isEmpty_iff.mp none_]
    exact .single (.done rfl)
  next =>
    obtain ⟨saved, all⟩ := promoteAll_course lenient e.pending.order
      (e := { e with pending := {} }.note (.toCome e.pending.order)) true now editing
    exact all.trans (.head (.done rfl) (persist_course Stage.maySave_steady _ saved))

omit lenient in
theorem replayEntry_course {e : Engine σ} (s : Summary) (may : R.restrict e.core) :
    Desk.Course R (e.desk .due true) ((e.replayEntry s).desk .due true) := by
  unfold replayEntry
  split
  next =>
    dsimp only
    split
    next => exact note_course rfl { e with deferredEntry := false } true
    next =>
      have restricted : Desk.Step R (e.desk .due true)
          (({ e with deferredEntry := false }.changeMode .restricted).desk .due true) :=
        .restrict may
      exact .head restricted (note_course rfl _ true)
  next => exact .refl

omit lenient in
theorem endBatch_course (e : Engine σ) (may : R.close e.core)
    (restrict : ∀ c : Core, c.jobs = [] → c.abandoned = [] → R.restrict c) :
    Desk.Course R (e.desk .steady true) (e.endBatch.2.desk .due true) := by
  let told := e.applyBatch.2.persist.releaseHost.tell (.stackCompleted e.applyBatch.1)
  have same : told.core = e.applyBatch.2.core := by
    rw [tell_core, releaseHost_core, persist_core]
  obtain ⟨nojobs, noabandoned⟩ := e.applyBatch_idle
  have ended : Desk.Course R (e.desk .steady true) (told.desk .due true) :=
    .head (.drain may) <| (persist_course Stage.maySave_due _ true).trans <|
      (releaseHost_course _ true).trans (note_course rfl _ true)
  refine ended.trans (replayEntry_course e.applyBatch.1 ?_)
  rw [same]
  exact restrict _ nojobs noabandoned

theorem closeBatch_course (e : Engine σ) (now : Nat) (may : R.close e.core) :
    Desk.Course R (e.desk .steady true) ((e.closeBatch now).2.desk .steady true) := by
  refine (endBatch_course e may lenient.restrict).trans ?_
  unfold closeBatch
  dsimp only
  split
  next h =>
    simp only [Bool.and_eq_true, beq_iff_eq] at h
    exact promote_course lenient now h.1
  next h =>
    refine .single (.rest rfl ?_)
    cases hm : e.endBatch.2.mode with
    | restricted => exact .inl hm
    | editing =>
      have none_ : e.endBatch.2.pending.order = [] := by simpa [hm, Pending.isEmpty] using h
      exact .inr none_

omit lenient in
theorem collect_course (may : stage.MaySave) (e : Engine σ) (now : Nat) :
    Desk.Course R (e.desk stage true) ((e.collect now).desk stage true) := by
  unfold collect
  split
  next => exact .refl
  next w h =>
    have free : Desk.Step R (e.desk stage true)
        (({ e with inFlight := none }.note (.collected w.job)).desk stage true) :=
      .collect w.job (by simp [desk, h])
    dsimp only
    split
    next => exact .refl
    next o _ => exact .head free (finishJob_course may _ _ o now)
    next => exact .head free ((error_course _ _ true).trans (finishJob_course may _ _ _ now))

omit lenient in
theorem abandon_course (may : stage.MaySave) {e : Engine σ} {j : Job} (now : Nat)
    (h : e.jobs.find? Job.isCompiling = some j) :
    Desk.Course R (e.desk stage true) ((e.abandon j now).desk stage true) := by
  have jobs := cancelJob_jobs e j
  refine (cancelJob_course e j true).trans ?_
  refine .trans ?_ (persist_course may _ true)
  have found : (e.cancelJob j).jobs.find? Job.isCompiling = some j := jobs ▸ h
  rw [← jobs]
  exact .single (.abandon j _ found rfl rfl rfl)

omit lenient in
theorem expire_course (may : stage.MaySave) (e : Engine σ) (now : Nat) :
    Desk.Course R (e.desk stage true) ((e.expire now).2.2.desk stage true) := by
  unfold expire
  split
  next => exact .refl
  next j h =>
    split
    next => exact (abandon_course may now h).trans (drain_course may _ now)
    next => exact .refl

omit lenient in
theorem advance_course (may : stage.MaySave) (e : Engine σ) (now : Nat) :
    Desk.Course R (e.desk stage true) ((e.advance now).2.desk stage true) := by
  unfold advance
  split
  next => exact drain_course may e now
  next => exact .refl

theorem settle_course (e : Engine σ) (now : Nat) :
    Desk.Course R (e.desk .steady true) ((e.settle now).2.desk .steady true) := by
  unfold settle
  split
  next ended =>
    have none_queued : ∀ j ∈ e.jobs, j.isQueued = false := by
      simp only [Bool.and_eq_true, Bool.not_eq_true', hasQueued, List.any_eq_false] at ended
      simpa using ended.1.2
    exact closeBatch_course lenient e now (lenient.close _ none_queued)
  next => exact .refl

theorem pollAt_course (e : Engine σ) (now : Nat) :
    Desk.Course R (e.desk .steady true) ((e.pollAt now).2.desk .steady true) :=
  (collect_course Stage.maySave_steady e now).trans <|
    (expire_course Stage.maySave_steady _ now).trans <|
      (advance_course Stage.maySave_steady _ now).trans (settle_course lenient _ now)

theorem breatheAndPoll_course (e : Engine σ) :
    Desk.Course R (e.desk .steady true) (e.breatheAndPoll.desk .steady true) :=
  (breathe_course e true).trans (pollAt_course lenient _ _)

/-- A request for a compile that is accepted leaves everything in a snapshot. -/
theorem enqueueAt_course {e : Engine σ} {master : Path} (immediate saved : Bool) (now : Nat)
    (may : R.queue e.core) (h : e.refusal? master = none) :
    (e.enqueueAt master immediate now).1 = .ok e.nextId ∧
      Desk.Course R (e.desk .steady saved)
        ((e.enqueueAt master immediate now).2.desk .steady true) := by
  refine ⟨by simp only [enqueueAt, submit, h], ?_⟩
  exact enqueueAt_preserves
    (P := fun d => Desk.Course R (e.desk .steady saved) (d.desk .steady true))
    (fun looked => looked.trans (breatheAndPoll_course lenient _))
    (fun passed => by rwa [passTime_desk]) (submit_course immediate saved now .steady may h)

omit lenient in
/-- One that is refused leaves everything as it is. -/
theorem enqueueAt_refused_course {e : Engine σ} {master : Path} {refusal : RequestError}
    (stage : Stage) (immediate saved : Bool) (now : Nat) (h : e.refusal? master = some refusal) :
    e.enqueueAt master immediate now = (.error refusal, e.noteRefusal refusal) ∧
      Desk.Course R (e.desk stage saved) ((e.noteRefusal refusal).desk stage saved) := by
  refine ⟨?_, noteRefusal_course e refusal saved⟩
  simp only [enqueueAt, submit, h]

end StoryBuild.Engine
