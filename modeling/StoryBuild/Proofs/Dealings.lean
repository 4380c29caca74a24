import StoryBuild.Proofs.WaitingList
import StoryBuild.Proofs.Waits

namespace StoryBuild

variable {P : Path → Prop}

/-- Whether an event, if it tells of a queued job or of a compile, tells of a master that fits. -/
def Event.Fits (P : Path → Prop) : Event → Prop
  | .queued _ master => P master
  | .called _ master => P master
  | _ => True

/-- Whether all jobs of a core, and all that its story tells of, are of masters that fit. -/
structure Core.Fits (P : Path → Prop) (c : Core) : Prop where
  jobs : ∀ j ∈ c.jobs, P j.path
  abandoned : ∀ j ∈ c.abandoned, P j.path
  story : ∀ event ∈ c.story, event.Fits P

/-- Whether all waiting masters fit. -/
def Pending.Fits (P : Path → Prop) (q : Pending) : Prop :=
  ∀ p, p ∈ q.order ∨ p ∈ q.members → P p

namespace Core.Fits

variable {c : Core}

theorem jobs_map (h : c.Fits P) (change : Job → Job) (path : ∀ j, (change j).path = j.path) :
    { c with jobs := c.jobs.map change }.Fits P := by
  refine ⟨fun j hj => ?_, h.abandoned, h.story⟩
  obtain ⟨k, hk, rfl⟩ := List.mem_map.mp hj
  exact path k ▸ h.jobs k hk

theorem tell (h : c.Fits P) (events : List Event) (fit : ∀ event ∈ events, event.Fits P) :
    { c with story := events ++ c.story }.Fits P :=
  ⟨h.jobs, h.abandoned, fun event hevent => (List.mem_append.mp hevent).elim (fit event)
    (h.story event)⟩

end Core.Fits

namespace Pending.Fits

variable {q : Pending} {p : Path}

theorem none_ : Pending.Fits P {} := by
  rintro p (h | h) <;> cases h

theorem push (h : q.Fits P) (hp : P p) : (q.push p).2.Fits P := by
  cases known : q.contains p with
  | true => rwa [push_known known]
  | false =>
    rw [push_new known]
    rintro x (hx | hx)
    · rcases List.mem_append.mp hx with hx | hx
      · exact h x (.inl hx)
      · rwa [List.mem_singleton.mp hx]
    · rcases List.mem_cons.mp hx with rfl | hx
      · exact hp
      · exact h x (.inr hx)

theorem remove (h : q.Fits P) (p : Path) : (q.remove p).2.Fits P := by
  cases known : q.contains p with
  | false => rwa [remove_unknown known]
  | true =>
    rw [remove_known known]
    exact fun x hx => h x (hx.imp (List.mem_filter.mp · |>.1) (List.mem_filter.mp · |>.1))

end Pending.Fits

namespace Engine

variable {σ : Type} {e d : Engine σ} {j : Job} {p : Path} {now : Nat}

/-- Whether an engine deals with masters only that fit. -/
structure KeepsTo (P : Path → Prop) (e : Engine σ) : Prop where
  core : e.core.Fits P
  waits : e.pending.Fits P

theorem KeepsTo.aside (h : e.KeepsTo P) (same : d.core = e.core)
    (waits : d.pending = e.pending) : d.KeepsTo P :=
  ⟨same ▸ h.core, waits ▸ h.waits⟩

theorem KeepsTo.of_core (h : e.KeepsTo P) (core : d.core.Fits P) (ground : e.SameGround d) :
    d.KeepsTo P :=
  ⟨core, ground.pending ▸ h.waits⟩

theorem KeepsTo.persist [Storage σ] (h : e.KeepsTo P) : e.persist.KeepsTo P :=
  h.aside (persist_core e) (persist_ground e).pending

theorem KeepsTo.persist_if [Storage σ] (h : e.KeepsTo P) (added : Bool) :
    (if added then e.persist else e).KeepsTo P := by
  split
  next => exact h.persist
  next => exact h

theorem changeMode_keepsTo (h : e.KeepsTo P) (mode : Mode) : (e.changeMode mode).KeepsTo P := by
  have told := h.core.tell [.mode mode] (by simp [Event.Fits])
  exact ⟨⟨told.jobs, told.abandoned, told.story⟩, h.waits⟩

theorem cancelWorker_keepsTo (h : e.KeepsTo P) : e.cancelWorker.KeepsTo P := by
  refine h.of_core ?_ e.cancelWorker_ground
  cases out : e.inFlight with
  | none =>
    rw [cancelWorker_idle out]
    exact h.core
  | some w =>
    rw [cancelWorker_core out]
    have told := h.core.tell [.fired w.job] (by simp [Event.Fits])
    exact ⟨told.jobs, told.abandoned, told.story⟩

theorem cancelJob_keepsTo (h : e.KeepsTo P) (j : Job) : (e.cancelJob j).KeepsTo P := by
  unfold cancelJob
  split
  next => exact cancelWorker_keepsTo h
  next => exact h

variable [Workshop σ]

theorem finishJob_keepsTo (h : e.KeepsTo P) (id : Nat) (o : Outcome) (now : Nat) :
    (e.finishJob id o now).KeepsTo P := by
  cases found : e.jobs.find? (fun j => j.id == id && j.isCompiling) with
  | none => rwa [finishJob_idle found]
  | some j =>
    refine h.of_core ?_ (e.finishJob_ground id o now)
    rw [finishJob_core found]
    exact h.core.jobs_map _ fun k => by split <;> rfl

/-- A job that is started is compiled for its own master. -/
theorem startJob_keepsTo (h : e.KeepsTo P) (hj : P j.path) (now : Nat) :
    (e.startJob j now).KeepsTo P := by
  have begins : (e.markStarted j now).KeepsTo P := by
    have rejobbed := h.core.jobs_map (fun k => if k.id == j.id then k.start now e.wall else k)
      fun k => by split <;> rfl
    have told := rejobbed.tell [.started j.id] (by simp [Event.Fits])
    exact ⟨told, h.waits⟩
  refine startJob_cases (P := fun d => d.KeepsTo P) e j now (fun _ _ => ?_) (fun r read _ => ?_)
    (fun r read _ _ => ?_) (fun r read _ _ => ?_)
  · exact finishJob_keepsTo begins _ _ _
  · have master : P r.master := (request_ids read).2 ▸ hj
    refine finishJob_keepsTo ⟨?_, ?_⟩ _ _ _
    · rw [runHere_core]
      exact begins.core.tell [.collected r.job, .called r.job r.master, .begun r.job]
        (by simp [Event.Fits, master])
    · unfold runHere
      dsimp only
      split <;> exact begins.waits
  · have lost := begins.core.tell [.begun r.job] (by simp [Event.Fits])
    exact KeepsTo.persist ⟨⟨lost.jobs, lost.abandoned, lost.story⟩, begins.waits⟩
  · have master : P r.master := (request_ids read).2 ▸ hj
    have called := begins.core.tell [.called r.job r.master, .begun r.job]
      (by simp [Event.Fits, master])
    exact KeepsTo.persist ⟨⟨called.jobs, called.abandoned, called.story⟩, begins.waits⟩

theorem drain_keepsTo (h : e.KeepsTo P) (now : Nat) : (e.drain now).2.KeepsTo P := by
  refine drain_preserves (P := fun d => d.KeepsTo P) (fun {d j} _ _ first h => ?_) h
  exact startJob_keepsTo h (h.core.jobs j (List.mem_of_find?_eq_some first)) now

theorem addJob_keepsTo (h : e.KeepsTo P) (hp : P p) (immediate : Bool) :
    (e.addJob p immediate).KeepsTo P := by
  constructor
  · rw [addJob_core]
    have told := h.core.tell [.queued e.nextId p] (by simp [Event.Fits, hp])
    refine ⟨fun j hj => ?_, told.abandoned, told.story⟩
    rcases List.mem_append.mp hj with hj | hj
    · exact h.core.jobs j hj
    · rw [List.mem_singleton.mp hj]
      exact hp
  · have suspended : e.suspendHost.pending = e.pending := by
      unfold suspendHost
      split <;> rfl
    unfold addJob
    dsimp only
    rw [(persist_ground _).pending]
    change (e.suspendHost.pending.remove p).2.Fits P
    rw [suspended]
    exact h.waits.remove p

theorem submit_keepsTo (h : e.KeepsTo P) (hp : P p) (immediate : Bool) (now : Nat) :
    (e.submit p immediate now).2.KeepsTo P := by
  unfold submit
  split
  next refusal _ => exact h.aside (noteRefusal_core e refusal) (by cases refusal <;> rfl)
  next => exact drain_keepsTo (addJob_keepsTo h hp immediate) now

omit [Workshop σ] in
theorem park_keepsTo (h : e.KeepsTo P) (hp : P p) : (e.park p).2.KeepsTo P :=
  ⟨h.core, h.waits.push hp⟩

theorem applyBatch_keepsTo (h : e.KeepsTo P) : e.applyBatch.2.KeepsTo P := by
  obtain ⟨produced, -, -, core⟩ := e.applyBatch_core
  obtain ⟨_, _, _, -, -, -, desk⟩ := e.applyBatch_desk .due true
  have waits : e.applyBatch.2.pending = e.pending := congrArg Desk.pending desk
  have told := h.core.tell
    (.drained e.core.batch e.applyBatch.1 :: produced.map Event.produced)
    (by simp [Event.Fits])
  refine ⟨?_, waits ▸ h.waits⟩
  rw [core]
  exact ⟨nofun, nofun, told.story⟩

theorem endBatch_keepsTo (h : e.KeepsTo P) : e.endBatch.2.KeepsTo P := by
  have released (d : Engine σ) (hd : d.KeepsTo P) : d.releaseHost.KeepsTo P :=
    hd.aside d.releaseHost_core (by unfold releaseHost; split <;> rfl)
  have replayed (d : Engine σ) (s : Summary) (hd : d.KeepsTo P) : (d.replayEntry s).KeepsTo P := by
    unfold replayEntry
    split
    next =>
      dsimp only
      split
      next => exact hd.aside (warn_core { d with deferredEntry := false } _) rfl
      next =>
        have entered := changeMode_keepsTo (hd.aside rfl rfl) .restricted
        exact entered.aside (tell_core _ _) rfl
    next => exact hd
  refine replayed _ _ ?_
  exact (released _ (applyBatch_keepsTo h).persist).aside (tell_core _ _) rfl

theorem promoteOne_keepsTo (h : e.KeepsTo P) (hp : P p) (now : Nat) :
    (promoteOne now e p).KeepsTo P := by
  unfold promoteOne
  split
  next => exact ⟨h.core, h.waits.push hp⟩
  next => exact submit_keepsTo h hp false now

theorem promote_keepsTo (h : e.KeepsTo P) (now : Nat) : (e.promote now).KeepsTo P := by
  have loop (masters : List Path) (fit : ∀ p ∈ masters, P p) :
      ∀ {e : Engine σ}, e.KeepsTo P → (promoteAll now masters e).KeepsTo P := by
    induction masters with
    | nil => exact id
    | cons p left ih =>
      intro e h
      exact ih (fun q hq => fit q (List.mem_cons_of_mem p hq))
        (promoteOne_keepsTo (h.aside (note_core rfl) rfl) (fit p List.mem_cons_self) now)
  have emptied : ({ e with pending := {} } : Engine σ).KeepsTo P := ⟨h.core, .none_⟩
  have taken : ({ e with pending := {} }.note (.toCome e.pending.order)).KeepsTo P :=
    emptied.aside (note_core rfl) rfl
  unfold promote
  dsimp only [Pending.drain]
  split
  next => exact taken
  next => exact (loop e.pending.order (fun p hp => h.waits p (.inl hp)) taken).persist

theorem closeBatch_keepsTo (h : e.KeepsTo P) (now : Nat) : (e.closeBatch now).2.KeepsTo P := by
  unfold closeBatch
  dsimp only
  split
  next => exact promote_keepsTo (endBatch_keepsTo h) now
  next => exact endBatch_keepsTo h

theorem collect_keepsTo (h : e.KeepsTo P) (now : Nat) : (e.collect now).KeepsTo P := by
  unfold collect
  split
  next => exact h
  next w _ =>
    have told := h.core.tell [.collected w.job] (by simp [Event.Fits])
    have free : ({ e with inFlight := none }.note (.collected w.job)).KeepsTo P :=
      ⟨⟨told.jobs, told.abandoned, told.story⟩, h.waits⟩
    dsimp only
    split
    next => exact h
    next => exact finishJob_keepsTo free _ _ _
    next => exact finishJob_keepsTo (free.aside (error_core _ _) rfl) _ _ _

theorem abandon_keepsTo (h : e.KeepsTo P) (hj : P j.path) (now : Nat) :
    (e.abandon j now).KeepsTo P := by
  refine h.of_core ?_ (e.abandon_ground j now)
  obtain ⟨given, -, path, core⟩ := e.abandon_core j now
  have stopped := (cancelJob_keepsTo h j).core
  rw [core]
  refine ⟨fun k hk => h.core.jobs k (List.mem_filter.mp hk).1, fun k hk => ?_, stopped.story⟩
  rcases List.mem_append.mp hk with hk | hk
  · exact stopped.abandoned k hk
  · rw [List.mem_singleton.mp hk, path]
    exact hj

theorem expire_keepsTo (h : e.KeepsTo P) (now : Nat) : (e.expire now).2.2.KeepsTo P := by
  unfold expire
  split
  next => exact h
  next j found =>
    split
    next =>
      have hj : P j.path := h.core.jobs j (List.mem_of_find?_eq_some found)
      exact drain_keepsTo (abandon_keepsTo h hj now) now
    next => exact h

theorem advance_keepsTo (h : e.KeepsTo P) (now : Nat) : (e.advance now).2.KeepsTo P := by
  unfold advance
  split
  next => exact drain_keepsTo h now
  next => exact h

theorem settle_keepsTo (h : e.KeepsTo P) (now : Nat) : (e.settle now).2.KeepsTo P := by
  unfold settle
  split
  next => exact closeBatch_keepsTo h now
  next => exact h

theorem pollAt_keepsTo (h : e.KeepsTo P) (now : Nat) : (e.pollAt now).2.KeepsTo P :=
  settle_keepsTo (advance_keepsTo (expire_keepsTo (collect_keepsTo h now) now) now) now

omit [Workshop σ] in
theorem tryRestricted_keepsTo (h : e.KeepsTo P) : e.tryRestricted.2.KeepsTo P := by
  unfold tryRestricted
  split
  next => exact h.aside (tell_core { e with deferredEntry := true } .deferred) rfl
  next => exact changeMode_keepsTo h .restricted

theorem exitRestricted_keepsTo (h : e.KeepsTo P) (now : Nat) :
    (e.exitRestricted now).KeepsTo P := by
  unfold exitRestricted
  split
  next => exact h
  next => exact promote_keepsTo (changeMode_keepsTo h .editing) now

theorem cancelAll_keepsTo (h : e.KeepsTo P) : e.cancelAll.2.KeepsTo P := by
  have stopped := (cancelWorker_keepsTo h).core
  constructor
  · rw [cancelAll_core]
    refine ⟨fun j hj => h.core.jobs j (List.mem_filter.mp hj).1, stopped.abandoned, ?_⟩
    refine fun event told => (List.mem_append.mp told).elim (fun dropped => ?_)
      (stopped.story event)
    obtain ⟨k, -, rfl⟩ := List.mem_map.mp (List.mem_reverse.mp dropped)
    trivial
  · have released (d : Engine σ) : (if d.isBusy then d else d.releaseHost).pending = d.pending := by
      unfold releaseHost
      split
      next => rfl
      next => split <;> rfl
    unfold cancelAll
    dsimp only
    rw [(persist_ground _).pending, released]
    exact (cancelWorker_keepsTo h).waits

theorem breatheAndPoll_keepsTo (h : e.KeepsTo P) : e.breatheAndPoll.KeepsTo P := by
  refine pollAt_keepsTo (h.aside e.breathe_core ?_) _
  unfold breathe
  split <;> rfl

omit [Workshop σ] in
theorem passTime_keepsTo (h : e.KeepsTo P) : e.passTime.KeepsTo P := by
  refine h.aside e.passTime_core ?_
  unfold passTime
  split
  next => rfl
  next => split <;> rfl

theorem enqueueAt_keepsTo (h : e.KeepsTo P) (hp : P p) (immediate : Bool) (now : Nat) :
    (e.enqueueAt p immediate now).2.KeepsTo P :=
  enqueueAt_preserves (P := fun d => d.KeepsTo P) breatheAndPoll_keepsTo passTime_keepsTo
    (submit_keepsTo h hp immediate now)

theorem park_persist_keepsTo (h : e.KeepsTo P) (hp : P p) :
    (if (e.park p).1 then (e.park p).2.persist else (e.park p).2).KeepsTo P :=
  (park_keepsTo h hp).persist_if _

omit [Workshop σ] in
theorem parkAll_keepsTo {masters : List Path} (h : e.KeepsTo P) (fit : ∀ p ∈ masters, P p) :
    (e.parkAll masters).2.KeepsTo P := by
  unfold parkAll
  generalize false = parked
  induction masters generalizing e parked with
  | nil => exact h
  | cons p rest ih =>
    exact ih (park_keepsTo h (fit p List.mem_cons_self))
      (fun q hq => fit q (List.mem_cons_of_mem p hq)) _

/-- A master that is compiled on request only is passed over when a source changes. -/
theorem reactTo_keepsTo (h : e.KeepsTo P) (fit : e.options.manualOnly p = false → P p)
    (parked : Bool) : (reactTo (parked, e) p).2.KeepsTo P := by
  unfold reactTo
  dsimp only
  split
  next => exact h
  next automatic =>
    have hp : P p := fit (by simpa using automatic)
    split
    next => exact park_keepsTo h hp
    next =>
      have asked := enqueueAt_keepsTo h hp false e.clock
      change (e.enqueue p false).2.KeepsTo P at asked
      split
      next answer =>
        rw [answer] at asked
        exact asked
      next answer =>
        rw [answer] at asked
        exact asked.aside (warn_core _ _) rfl

theorem compileEach_keepsTo {masters : List Path} (h : e.KeepsTo P) (fit : ∀ p ∈ masters, P p) :
    (compileEach masters e).2.KeepsTo P := by
  induction masters generalizing e with
  | nil => exact h
  | cons p rest ih =>
    have hp : P p := fit p List.mem_cons_self
    have others : ∀ q ∈ rest, P q := fun q hq => fit q (List.mem_cons_of_mem p hq)
    unfold compileEach
    split
    next => exact ih h others
    next =>
      split
      next => exact ih (park_persist_keepsTo h hp) others
      next =>
        have asked := enqueueAt_keepsTo h hp false e.clock
        change (e.enqueue p false).2.KeepsTo P at asked
        split
        next answer =>
          rw [answer] at asked
          exact asked
        next answer =>
          rw [answer] at asked
          exact ih asked others

/-- The master that a refusal says to have a job is the one that was asked for. -/
theorem enqueue_alreadyQueued {master : Path} {immediate : Bool}
    (refused : e.enqueue p immediate = (.error (.alreadyQueued master), d)) : master = p := by
  unfold enqueue enqueueAt submit at refused
  cases h : e.refusal? p with
  | none => simp [h] at refused
  | some refusal =>
    obtain rfl : refusal = .alreadyQueued master := by simp_all
    unfold refusal? at h
    split at h
    next => simp at h
    next =>
      split at h
      next => simp at h
      next =>
        split at h
        next => simpa using h.symm
        next => simp at h

theorem compileOwners_keepsTo {masters : List Path} (h : e.KeepsTo P) (fit : ∀ p ∈ masters, P p)
    (immediate : Bool) : (compileOwners immediate masters e).2.KeepsTo P := by
  induction masters generalizing e with
  | nil => exact h
  | cons p rest ih =>
    have hp : P p := fit p List.mem_cons_self
    have others : ∀ q ∈ rest, P q := fun q hq => fit q (List.mem_cons_of_mem p hq)
    have asked := enqueueAt_keepsTo h hp immediate e.clock
    change (e.enqueue p immediate).2.KeepsTo P at asked
    unfold compileOwners
    split
    next answer =>
      rw [answer] at asked
      exact ih asked others
    next answer =>
      obtain rfl := enqueue_alreadyQueued answer
      rw [answer] at asked
      exact ih (park_persist_keepsTo asked hp) others
    next answer =>
      rw [answer] at asked
      exact asked

theorem restore_keepsTo (h : e.KeepsTo P) (s : Snapshot) (fit : ∀ p ∈ s.resume.map .ofText, P p) :
    (e.restore s).2.KeepsTo P := by
  have one (raw : String) (hp : P (.ofText raw)) (ids : List Nat) (e : Engine σ)
      (h : e.KeepsTo P) : (restoreOne (ids, e) raw).2.KeepsTo P := by
    unfold restoreOne
    dsimp only
    split
    next => exact h.aside (warn_core _ _) rfl
    next =>
      split
      next => exact park_keepsTo h hp
      next =>
        have asked := enqueueAt_keepsTo h hp false e.clock
        change (e.enqueue (.ofText raw) false).2.KeepsTo P at asked
        split
        next answer =>
          rw [answer] at asked
          exact asked
        next answer =>
          rw [answer] at asked
          exact asked.aside (warn_core _ _) rfl
  have loop (raws : List String) (fit : ∀ p ∈ raws.map .ofText, P p) :
      ∀ (ids : List Nat) (e : Engine σ), e.KeepsTo P →
        (raws.foldl restoreOne (ids, e)).2.KeepsTo P := by
    induction raws with
    | nil => exact fun _ _ => id
    | cons raw rest ih =>
      intro ids e h
      exact ih (fun q hq => fit q (List.mem_cons_of_mem _ hq)) _ _
        (one raw (fit _ List.mem_cons_self) ids e h)
  unfold restore
  split
  next => exact h
  next => exact (loop s.resume fit [] e h).persist

end Engine

end StoryBuild
