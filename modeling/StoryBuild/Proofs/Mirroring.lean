import StoryBuild.Proofs.StateFile

namespace StoryBuild.Engine

variable {σ : Type} {p : Path} {d e f : Engine σ}

/-- What was last written to the path is the queue as it is, unless a snapshot was refused. -/
def Saved (p : Path) (e : Engine σ) : Prop :=
  .log refusalLine ∈ e.trace ∨ lastWritten p e.trace = some e.snapshot.render.toUTF8

/-- An engine that has done something keeps its options and its trace. -/
structure Grows (e d : Engine σ) : Prop where
  options : d.options = e.options
  trace : e.trace <:+ d.trace

/-- An engine that keeps its snapshot at a path has saved the queue, or neither the queue nor what
was last written has changed. -/
structure Mirrors (p : Path) (e d : Engine σ) : Prop extends Grows e d where
  saved : e.options.statePath = some p → d.Saved p ∨
    (d.snapshot = e.snapshot ∧ lastWritten p d.trace = lastWritten p e.trace)

theorem Grows.refl (e : Engine σ) : e.Grows e :=
  ⟨rfl, List.suffix_refl _⟩

theorem Grows.trans (h : e.Grows d) (h' : d.Grows f) : e.Grows f :=
  ⟨h'.options.trans h.options, h.trace.trans h'.trace⟩

theorem Grows.note (h : e.Grows d) (event : Event) : e.Grows (d.note event) :=
  ⟨h.options, h.trace.trans (List.suffix_cons _ _)⟩

theorem Mirrors.refl (e : Engine σ) : e.Mirrors p e :=
  ⟨Grows.refl e, fun _ => .inr ⟨rfl, rfl⟩⟩

theorem Saved.lasts (h : e.Saved p) (grows : e.Grows d)
    (same : d.snapshot = e.snapshot ∧ lastWritten p d.trace = lastWritten p e.trace) :
    d.Saved p := by
  refine h.imp (fun refused => grows.trace.subset refused) fun last => ?_
  rw [same.1, same.2, last]

theorem Mirrors.trans (h : e.Mirrors p d) (h' : d.Mirrors p f) : e.Mirrors p f := by
  refine ⟨h.toGrows.trans h'.toGrows, fun kept => ?_⟩
  have kept' : d.options.statePath = some p := by rw [h.options, kept]
  rcases h'.saved kept' with saved | same'
  · exact .inl saved
  · rcases h.saved kept with saved | same
    · exact .inl (saved.lasts h'.toGrows same')
    · exact .inr ⟨same'.1.trans same.1, same'.2.trans same.2⟩

/-- Events that write nothing leave the last snapshot as it is. -/
theorem Mirrors.quiet (events : List Event) (trace : d.trace = events ++ e.trace)
    (silent : ∀ event ∈ events, event.writtenTo? p = none) (options : d.options = e.options)
    (same : d.snapshot = e.snapshot) : e.Mirrors p d := by
  refine ⟨⟨options, trace ▸ List.suffix_append _ _⟩, fun _ => .inr ⟨same, ?_⟩⟩
  rw [trace, lastWritten_append e.trace silent]

theorem Mirrors.same (trace : d.trace = e.trace) (options : d.options = e.options)
    (same : d.snapshot = e.snapshot) : e.Mirrors p d :=
  .quiet [] trace (by simp) options same

theorem note_mirrors {event : Event} (silent : event.writtenTo? p = none) (e : Engine σ) :
    e.Mirrors p (e.note event) :=
  .quiet [event] rfl (by simpa using silent) rfl rfl

section Storage

variable [Storage σ]

theorem persist_grows (e : Engine σ) : e.Grows e.persist := by
  unfold persist
  split
  next => exact .refl e
  next =>
    dsimp only
    split
    next => exact ⟨rfl, List.suffix_cons _ _⟩
    next => exact ⟨rfl, List.suffix_cons _ _⟩

theorem persist_saved (kept : e.options.statePath = some p) : e.persist.Saved p := by
  unfold persist
  rw [kept]
  dsimp only
  split
  next =>
    have here_ : (p == p) = true := Path.beq_iff.mpr rfl
    refine .inr ?_
    change lastWritten p (.wrote p _ :: e.trace) = _
    rw [lastWritten_wrote, if_pos here_]
    rfl
  next => exact .inl List.mem_cons_self

/-- Whatever was done, a snapshot after it mirrors the queue. -/
theorem Grows.persist (h : e.Grows d) : e.Mirrors p d.persist := by
  refine ⟨h.trans d.persist_grows, fun kept => .inl (persist_saved ?_)⟩
  rw [h.options, kept]

theorem Grows.persist_if (h : e.Grows d) {changed : Bool}
    (same : changed = false → e.Mirrors p d) :
    e.Mirrors p (if changed then d.persist else d) := by
  cases changed with
  | true => exact h.persist
  | false => exact same rfl

end Storage

theorem cancelWorker_mirrors (e : Engine σ) : e.Mirrors p e.cancelWorker := by
  unfold cancelWorker
  split
  next => exact .refl e
  next w _ =>
    have fired : e.Mirrors p ({ e with inFlight := none }.note (.fired w.job)) :=
      .quiet [.fired w.job] rfl (by simp [Event.writtenTo?]) rfl rfl
    dsimp only
    split
    next => exact fired.trans (.same rfl rfl rfl)
    next => exact fired.trans (note_mirrors rfl _)
    next => exact fired

theorem cancelJob_mirrors (e : Engine σ) (j : Job) : e.Mirrors p (e.cancelJob j) := by
  unfold cancelJob
  split
  next => exact e.cancelWorker_mirrors
  next => exact .refl e

theorem releaseHost_mirrors (e : Engine σ) : e.Mirrors p e.releaseHost := by
  unfold releaseHost
  split
  next => exact .quiet [.host .release] rfl (by simp [Event.writtenTo?]) rfl rfl
  next => exact .refl e

theorem passTime_mirrors (e : Engine σ) : e.Mirrors p e.passTime := by
  unfold passTime
  split
  next => exact .refl e
  next =>
    split
    next => exact .refl e
    next => exact .same rfl rfl rfl

section Storage

variable [Storage σ]

theorem resume_mirrors (e : Engine σ) (stray : Bool) (w : Worker) :
    e.Mirrors p (e.resume stray w).2 := by
  unfold resume
  split
  next =>
    split
    next => exact .refl e
    next => exact .refl e
    next => exact note_mirrors rfl e
  next => exact .refl e

theorem resumeStrays_mirrors (chosen : Worker → Bool) (strays : List Worker) (e : Engine σ) :
    e.Mirrors p (e.resumeStrays chosen strays).2 := by
  induction strays generalizing e with
  | nil => exact .refl e
  | cons w rest ih =>
    unfold resumeStrays
    split
    next => exact (e.resume_mirrors true w).trans (ih _)
    next => exact ih e

theorem release_mirrors (e : Engine σ) (master : Option Path) : e.Mirrors p (e.release master) := by
  unfold release
  dsimp only
  generalize hresult : e.resumeStrays _ e.strays = result
  have freed : e.Mirrors p { result.2 with strays := result.1 } := by
    have resumed := resumeStrays_mirrors (p := p)
      (fun w => master.all fun p => w.request.master == p) e.strays e
    rw [hresult] at resumed
    exact resumed.trans (.same rfl rfl rfl)
  split
  next w _ =>
    split
    next => exact (freed.trans (resume_mirrors _ false w)).trans (.same rfl rfl rfl)
    next => exact freed
  next => exact freed

end Storage

variable [Workshop σ]

theorem breathe_mirrors (e : Engine σ) : e.Mirrors p e.breathe := by
  unfold breathe
  split
  next => exact .same rfl rfl rfl
  next => exact .refl e

theorem finishJob_mirrors (e : Engine σ) (id : Nat) (o : Outcome) (now : Nat) :
    e.Mirrors p (e.finishJob id o now) := by
  unfold finishJob
  split
  next => exact .refl e
  next =>
    refine Grows.persist ?_
    split
    next => exact ⟨rfl, List.suffix_cons _ _⟩
    next => exact ⟨rfl, List.suffix_refl _⟩

/-- The result of a compiling job is saved. -/
theorem finishJob_saved {d : Engine σ} {j : Job} (h : d.Grows e) (compiling : j.isCompiling = true)
    (mem : j ∈ e.jobs) (o : Outcome) (now : Nat) : d.Mirrors p (e.finishJob j.id o now) := by
  unfold finishJob
  split
  next none_ =>
    have found := List.find?_eq_none.mp none_ j mem
    simp [compiling] at found
  next =>
    refine Grows.persist (h.trans ?_)
    split
    next => exact ⟨rfl, List.suffix_cons _ _⟩
    next => exact ⟨rfl, List.suffix_refl _⟩

theorem runHere_grows (e : Engine σ) (r : Request) : e.Grows (e.runHere r).2 := by
  have events : e.trace <:+ .collected r.job :: .called r.job r.master :: .begun r.job :: e.trace :=
    List.suffix_append [_, _, _] _
  unfold runHere
  dsimp only
  split <;> exact ⟨rfl, events⟩

theorem runHere_jobs (e : Engine σ) (r : Request) : (e.runHere r).2.jobs = e.jobs := by
  unfold runHere
  dsimp only
  split <;> rfl

omit [Workshop σ] in
theorem loseWorker_grows (e : Engine σ) (r : Request) : e.Grows (e.loseWorker r) :=
  ⟨rfl, List.suffix_cons _ _⟩

theorem sendWorker_grows (e : Engine σ) (r : Request) : e.Grows (e.sendWorker r) :=
  ⟨rfl, List.suffix_append [_, _] _⟩

/-- A job that is started is saved as started, or as ended if it ends at once. -/
theorem startJob_mirrors {e : Engine σ} {j : Job} (mem : j ∈ e.jobs) (now : Nat) :
    e.Mirrors p (e.startJob j now) := by
  have later : e.Grows (e.markStarted j now) := ⟨rfl, List.suffix_cons _ _⟩
  have started : j.start now e.wall ∈ (e.markStarted j now).jobs :=
    List.mem_map.mpr ⟨j, mem, by simp⟩
  refine startJob_cases (P := e.Mirrors p) e j now (fun _ _ => ?_) (fun r _ _ => ?_)
    (fun r _ _ _ => ?_) (fun r _ _ _ => ?_)
  · -- Whatever keeps the compile from beginning, the job is saved as ended.
    exact finishJob_saved later rfl started _ now
  · rw [← runHere_jobs _ r] at started
    exact finishJob_saved (later.trans (runHere_grows _ r)) rfl started _ _
  · exact (later.trans (loseWorker_grows _ r)).persist
  · exact (later.trans (sendWorker_grows _ r)).persist

theorem drain_mirrors (e : Engine σ) (now : Nat) : e.Mirrors p (e.drain now).2 := by
  refine drain_preserves (P := e.Mirrors p) (fun _ _ first h => h.trans ?_) (.refl e)
  exact startJob_mirrors (List.mem_of_find?_eq_some first) now

theorem addJob_mirrors (e : Engine σ) (master : Path) (immediate : Bool) :
    e.Mirrors p (e.addJob master immediate) := by
  refine Grows.persist ?_
  unfold suspendHost
  split
  next => exact ⟨rfl, List.suffix_append [_, _] _⟩
  next => exact ⟨rfl, List.suffix_cons _ _⟩

omit [Workshop σ] in
theorem noteRefusal_mirrors (e : Engine σ) (refusal : RequestError) :
    e.Mirrors p (e.noteRefusal refusal) := by
  cases refusal with
  | alreadyQueued => exact note_mirrors rfl e
  | _ => exact .refl e

theorem submit_mirrors (e : Engine σ) (master : Path) (immediate : Bool) (now : Nat) :
    e.Mirrors p (e.submit master immediate now).2 := by
  unfold submit
  split
  next => exact e.noteRefusal_mirrors _
  next => exact (e.addJob_mirrors master immediate).trans (drain_mirrors _ now)

theorem promoteOne_grows (now : Nat) (e : Engine σ) (m : Path) : e.Grows (promoteOne now e m) := by
  unfold promoteOne
  split
  next => exact ⟨rfl, List.suffix_refl _⟩
  next => exact (submit_mirrors (p := m) e m false now).toGrows

theorem promote_mirrors (e : Engine σ) (now : Nat) : e.Mirrors p (e.promote now) := by
  have told (masters : List Path) (e : Engine σ) : e.Grows (e.note (.toCome masters)) :=
    ⟨rfl, List.suffix_cons _ _⟩
  have all (paths : List Path) : ∀ e : Engine σ, e.Grows (promoteAll now paths e) := by
    induction paths with
    | nil => exact Grows.refl
    | cons m left ih =>
      exact fun e => ((told left e).trans (promoteOne_grows now _ m)).trans (ih _)
  unfold promote Pending.drain
  dsimp only
  split
  next none_ =>
    have same : ({ e with pending := {} } : Engine σ).snapshot = e.snapshot := by
      simp [snapshot, List.isEmpty_iff.mp none_]
    exact .quiet [.toCome e.pending.order] rfl (by simp [Event.writtenTo?]) rfl same
  next =>
    have taken : e.Grows ({ e with pending := {} }.note (.toCome e.pending.order)) :=
      ⟨rfl, List.suffix_cons _ _⟩
    exact (taken.trans (all e.pending.order _)).persist

theorem applyBatch_grows (e : Engine σ) : e.Grows e.applyBatch.2 := by
  obtain ⟨deeds, graph, site, -, -, -, same⟩ := e.applyBatch_desk .steady true
  have options : e.applyBatch.2.options = e.options := congrArg Desk.options same
  have trace : e.applyBatch.2.trace = .drained e.batchJobs e.applyBatch.1 :: (deeds ++ e.trace) :=
    congrArg Desk.trace same
  refine ⟨options, ?_⟩
  rw [trace]
  exact (List.suffix_append _ _).trans (List.suffix_cons _ _)

omit [Workshop σ] in
theorem replayEntry_mirrors (e : Engine σ) (s : Summary) : e.Mirrors p (e.replayEntry s) := by
  unfold replayEntry
  split
  next =>
    dsimp only
    split
    next => exact .quiet [_] rfl (by simp [Event.writtenTo?]) rfl rfl
    next => exact .quiet [_, _] rfl (by simp [Event.writtenTo?]) rfl rfl
  next => exact .refl e

theorem endBatch_mirrors (e : Engine σ) : e.Mirrors p e.endBatch.2 := by
  have saved : e.Mirrors p e.applyBatch.2.persist := e.applyBatch_grows.persist
  have released := saved.trans (releaseHost_mirrors _)
  have told : e.Mirrors p (e.applyBatch.2.persist.releaseHost.tell
      (.stackCompleted e.applyBatch.1)) := released.trans (note_mirrors rfl _)
  exact told.trans (replayEntry_mirrors _ e.applyBatch.1)

theorem closeBatch_mirrors (e : Engine σ) (now : Nat) : e.Mirrors p (e.closeBatch now).2 := by
  have ended : e.Mirrors p e.endBatch.2 := e.endBatch_mirrors
  unfold closeBatch
  dsimp only
  split
  next => exact ended.trans (promote_mirrors _ now)
  next => exact ended

theorem collect_mirrors (e : Engine σ) (now : Nat) : e.Mirrors p (e.collect now) := by
  unfold collect
  split
  next => exact .refl e
  next w _ =>
    have free : e.Mirrors p ({ e with inFlight := none }.note (.collected w.job)) :=
      .quiet [.collected w.job] rfl (by simp [Event.writtenTo?]) rfl rfl
    dsimp only
    split
    next => exact .refl e
    next o _ => exact free.trans (finishJob_mirrors _ _ o now)
    next => exact (free.trans (note_mirrors rfl _)).trans (finishJob_mirrors _ _ _ now)

theorem abandon_mirrors (e : Engine σ) (j : Job) (now : Nat) : e.Mirrors p (e.abandon j now) := by
  have stopped : e.Grows (e.cancelJob j) := (cancelJob_mirrors (p := j.path) e j).toGrows
  exact Grows.persist ⟨stopped.options, stopped.trace.trans (List.suffix_cons _ _)⟩

theorem expire_mirrors (e : Engine σ) (now : Nat) : e.Mirrors p (e.expire now).2.2 := by
  unfold expire
  split
  next => exact .refl e
  next j _ =>
    split
    next => exact (e.abandon_mirrors j now).trans (drain_mirrors _ now)
    next => exact .refl e

theorem advance_mirrors (e : Engine σ) (now : Nat) : e.Mirrors p (e.advance now).2 := by
  unfold advance
  split
  next => exact e.drain_mirrors now
  next => exact .refl e

theorem settle_mirrors (e : Engine σ) (now : Nat) : e.Mirrors p (e.settle now).2 := by
  unfold settle
  split
  next => exact e.closeBatch_mirrors now
  next => exact .refl e

theorem pollAt_mirrors (e : Engine σ) (now : Nat) : e.Mirrors p (e.pollAt now).2 :=
  (((e.collect_mirrors now).trans (expire_mirrors _ now)).trans (advance_mirrors _ now)).trans
    (settle_mirrors _ now)

theorem breatheAndPoll_mirrors (e : Engine σ) : e.Mirrors p e.breatheAndPoll :=
  e.breathe_mirrors.trans (pollAt_mirrors _ _)

theorem enqueueAt_mirrors (e : Engine σ) (master : Path) (immediate : Bool) (now : Nat) :
    e.Mirrors p (e.enqueueAt master immediate now).2 :=
  enqueueAt_preserves (P := e.Mirrors p) (fun h => h.trans (breatheAndPoll_mirrors _))
    (fun h => h.trans (passTime_mirrors _)) (e.submit_mirrors master immediate now)

omit [Workshop σ] in
theorem park_grows (e : Engine σ) (m : Path) : e.Grows (e.park m).2 :=
  ⟨rfl, List.suffix_refl _⟩

omit [Workshop σ] in
/-- A master that waits already is not parked anew. -/
theorem park_mirrors (e : Engine σ) (m : Path) (known : (e.park m).1 = false) :
    e.Mirrors p (e.park m).2 := by
  unfold park at known ⊢
  dsimp only at known ⊢
  cases waits : e.pending.contains m with
  | true => exact .same rfl rfl (by rw [Pending.push_known waits])
  | false => simp [Pending.push_new waits] at known

theorem park_persist_mirrors (e : Engine σ) (m : Path) :
    e.Mirrors p (if (e.park m).1 then (e.park m).2.persist else (e.park m).2) :=
  (e.park_grows m).persist_if (e.park_mirrors m)

/-- What a walk over masters carries along: nothing is left to be saved unless one was parked. -/
structure Parks (p : Path) (e : Engine σ) (state : Bool × Engine σ) : Prop where
  grows : e.Grows state.2
  mirrors : state.1 = false → e.Mirrors p state.2

omit [Workshop σ] in
theorem Parks.start (e : Engine σ) : e.Parks p (false, e) :=
  ⟨.refl e, fun _ => .refl e⟩

omit [Workshop σ] in
theorem Parks.park {state : Bool × Engine σ} (h : e.Parks p state) (m : Path) :
    e.Parks p (state.1 || (state.2.park m).1, (state.2.park m).2) := by
  refine ⟨h.grows.trans (state.2.park_grows m), fun known => ?_⟩
  simp only [Bool.or_eq_false_iff] at known
  exact (h.mirrors known.1).trans (park_mirrors _ m known.2)

omit [Workshop σ] in
theorem Parks.next {state : Bool × Engine σ} (h : e.Parks p state) (one : state.2.Mirrors p d) :
    e.Parks p (state.1, d) :=
  ⟨h.grows.trans one.toGrows, fun known => (h.mirrors known).trans one⟩

theorem Parks.persist {state : Bool × Engine σ} (h : e.Parks p state) :
    e.Mirrors p (if state.1 then state.2.persist else state.2) :=
  h.grows.persist_if h.mirrors

omit [Workshop σ] in
theorem parkAll_parks (e : Engine σ) (masters : List Path) : e.Parks p (e.parkAll masters) := by
  have walk : ∀ state : Bool × Engine σ, e.Parks p state →
      e.Parks p (masters.foldl (fun state m =>
        (state.1 || (state.2.park m).1, (state.2.park m).2)) state) := by
    induction masters with
    | nil => exact fun _ h => h
    | cons m rest ih => exact fun state h => ih _ (h.park m)
  exact walk (false, e) (.start e)

theorem reactTo_parks {state : Bool × Engine σ} (h : e.Parks p state) (m : Path) :
    e.Parks p (reactTo state m) := by
  obtain ⟨parked, d⟩ := state
  have asked := d.enqueueAt_mirrors (p := p) m false d.clock
  unfold reactTo enqueue
  dsimp only
  split
  next => exact h
  next =>
    split
    next => exact h.park m
    next =>
      split
      next accepted =>
        rw [accepted] at asked
        exact h.next asked
      next refused =>
        rw [refused] at asked
        exact h.next (asked.trans (note_mirrors rfl _))

/-- A look at the disk leaves the queue and its snapshot alone. -/
theorem look_mirrors (e : Engine σ) (a : Act σ) : e.Mirrors p (e.look a) := by
  obtain ⟨graph, site, events, quiet, same⟩ := e.look_desk .steady a
  have options : (e.look a).options = e.options := congrArg Desk.options same
  have trace : (e.look a).trace = events ++ e.trace := congrArg Desk.trace same
  have queue : (e.look a).snapshot = e.snapshot := congrArg Desk.snapshot same
  refine .quiet events trace (fun event hevent => ?_) options queue
  have silent := quiet event hevent
  cases event <;> first | rfl | cases silent

theorem sourceChanged_mirrors (e : Engine σ) (q : Path) : e.Mirrors p (e.sourceChanged q).2 := by
  have walk (masters : List Path) (d : Engine σ) :
      d.Parks p (masters.foldl reactTo (false, d)) := by
    have all : ∀ state, d.Parks p state → d.Parks p (masters.foldl reactTo state) := by
      induction masters with
      | nil => exact fun _ h => h
      | cons m rest ih => exact fun state h => ih _ (reactTo_parks h m)
    exact all (false, d) (.start d)
  have seen : e.Mirrors p (e.look (.sourceChanged q)) := e.look_mirrors _
  unfold sourceChanged
  dsimp only
  split
  next => exact seen.trans (walk _ _).persist
  next => exact seen

theorem compileEach_mirrors (masters : List Path) (e : Engine σ) :
    e.Mirrors p (compileEach masters e).2 := by
  induction masters generalizing e with
  | nil => exact .refl e
  | cons m rest ih =>
    have asked := e.enqueueAt_mirrors (p := p) m false e.clock
    unfold compileEach enqueue
    split
    next => exact ih e
    next =>
      split
      next => exact (e.park_persist_mirrors m).trans (ih _)
      next =>
        split
        next refused => rwa [refused] at asked
        next accepted =>
          rw [accepted] at asked
          exact asked.trans (ih _)

theorem compileOwners_mirrors (immediate : Bool) (masters : List Path) (e : Engine σ) :
    e.Mirrors p (compileOwners immediate masters e).2 := by
  induction masters generalizing e with
  | nil => exact .refl e
  | cons m rest ih =>
    have asked := e.enqueueAt_mirrors (p := p) m immediate e.clock
    unfold compileOwners enqueue
    split
    next accepted =>
      rw [accepted] at asked
      exact asked.trans (ih _)
    next master _ refused =>
      rw [refused] at asked
      exact (asked.trans (park_persist_mirrors _ master)).trans (ih _)
    next refused => rwa [refused] at asked

theorem compileFile_mirrors (e : Engine σ) (q : Path) (immediate : Bool) :
    e.Mirrors p (e.compileFile q immediate).2 := by
  unfold compileFile
  split
  next => exact .refl e
  next f _ =>
    dsimp only
    generalize (if f.isMaster then [q] else f.masters) = masters
    split
    next => exact .refl e
    next =>
      split
      next => exact (e.parkAll_parks _).persist
      next => exact compileOwners_mirrors immediate _ e

theorem cancelAll_mirrors (e : Engine σ) : e.Mirrors p e.cancelAll.2 := by
  -- Only the last step saves. Of those before it the growth of the trace is enough, at any path.
  have stopped : e.Grows e.cancelWorker := (cancelWorker_mirrors (p := .ofText "") e).toGrows
  let dropped := { e.cancelWorker with
    jobs := e.cancelWorker.jobs.filter Job.isComplete, deferredEntry := false }.noteAll
      ((e.cancelWorker.jobs.filter fun j : Job => !j.isComplete).map fun j : Job => .dropped j.id)
  have grown : e.Grows dropped := ⟨stopped.options, stopped.trace.trans (List.suffix_append _ _)⟩
  have released : dropped.Grows dropped.releaseHost :=
    (releaseHost_mirrors (p := .ofText "") dropped).toGrows
  unfold cancelAll
  dsimp only
  split
  next => exact grown.persist
  next => exact (grown.trans released).persist

theorem restoreOne_grows (ids : List Nat) (e : Engine σ) (raw : String) :
    e.Grows (restoreOne (ids, e) raw).2 := by
  have asked := (e.enqueueAt_mirrors (p := .ofText raw) (.ofText raw) false e.clock).toGrows
  unfold restoreOne enqueue
  dsimp only
  split
  next => exact (Grows.refl e).note _
  next =>
    split
    next => exact e.park_grows _
    next =>
      split
      next accepted => rwa [accepted] at asked
      next refused =>
        rw [refused] at asked
        exact asked.note _

theorem restore_mirrors (e : Engine σ) (s : Snapshot) : e.Mirrors p (e.restore s).2 := by
  have all (raws : List String) :
      ∀ ids (e : Engine σ), e.Grows (raws.foldl restoreOne (ids, e)).2 := by
    induction raws with
    | nil => exact fun _ e => .refl e
    | cons raw rest ih => exact fun ids e => (restoreOne_grows ids e raw).trans (ih _ _)
  unfold restore
  split
  next => exact .refl e
  next => exact (all s.resume [] e).persist

theorem loadAndRestore_mirrors (e : Engine σ) : e.Mirrors p e.loadAndRestore.2 := by
  unfold loadAndRestore
  split
  next => exact .refl e
  next =>
    split
    next => exact .refl e
    next => exact .refl e
    next => exact .refl e
    next s _ => exact e.restore_mirrors s

theorem exitRestricted_mirrors (e : Engine σ) (now : Nat) : e.Mirrors p (e.exitRestricted now) := by
  have edited : e.Mirrors p (e.changeMode .editing) :=
    .quiet [.mode .editing] rfl (by simp [Event.writtenTo?]) rfl rfl
  unfold exitRestricted
  split
  next => exact .refl e
  next => exact edited.trans (promote_mirrors _ now)

theorem act_mirrors (e : Engine σ) (a : Act σ) : e.Mirrors p (e.act a) := by
  cases a with
  | enqueue master immediate now => exact e.enqueueAt_mirrors master immediate now
  | drainQueue now => exact e.drain_mirrors now
  | poll now => exact e.pollAt_mirrors now
  | workerFinished id o now => exact e.finishJob_mirrors id o now
  | queueDrained now => exact e.closeBatch_mirrors now
  | tryRestricted =>
    simp only [act, tryRestricted]
    split
    next => exact .quiet [.host .deferred] rfl (by simp [Event.writtenTo?]) rfl rfl
    next => exact .quiet [.mode .restricted] rfl (by simp [Event.writtenTo?]) rfl rfl
  | exitRestricted now => exact e.exitRestricted_mirrors now
  | setMode mode now =>
    cases mode with
    | editing => exact e.exitRestricted_mirrors now
    | restricted => exact .quiet [.mode .restricted] rfl (by simp [Event.writtenTo?]) rfl rfl
  | sourceChanged q => exact e.sourceChanged_mirrors q
  | compileAll force =>
    have seen : e.Mirrors p (e.look (.compileAll force)) := e.look_mirrors _
    exact seen.trans (compileEach_mirrors _ _)
  | compileFile q immediate => exact e.compileFile_mirrors q immediate
  | cancelAll => exact e.cancelAll_mirrors
  | shutdown => exact e.cancelWorker_mirrors
  | rebuildGraph => exact e.look_mirrors .rebuildGraph
  | rebuildIfRequired => exact e.look_mirrors .rebuildIfRequired
  | restore s => exact e.restore_mirrors s
  | loadAndRestore => exact e.loadAndRestore_mirrors
  | siteChanged site => exact .same rfl rfl rfl
  | workerTurn state => exact .same rfl rfl rfl
  | release master => exact e.release_mirrors master
  | timePasses millis => exact .same rfl rfl rfl

theorem run_mirrors (e : Engine σ) (acts : List (Act σ)) : e.Mirrors p (e.run acts) :=
  run_preserves (P := e.Mirrors p) (fun a _ e' h => h.trans (e'.act_mirrors a)) (.refl e)

end StoryBuild.Engine
