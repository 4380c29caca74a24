import StoryBuild.Proofs.HostSteps

namespace StoryBuild

/-- Whether a batch is ended from outside, as it stands. -/
def Act.endsBatch {σ : Type} : Act σ → Bool
  | .queueDrained _ => true
  | _ => false

namespace Engine

variable {σ : Type} [Workshop σ]

theorem writeArtifact_footing (e : Engine σ) (j : Job) :
    (e.writeArtifact j).2.2.footing = e.footing := by
  unfold writeArtifact
  split
  next => rfl
  next =>
    split
    next site _ =>
      exact (note_footing rfl).trans (note_footing (e := { e with site }) rfl)
    next site _ => exact error_footing { e with site } _

theorem applyJob_footing (s : Summary) (e : Engine σ) (j : Job) :
    (applyJob (s, e) j).2.footing = e.footing := by
  rw [← e.writeArtifact_footing j]
  unfold applyJob
  dsimp only
  refine (note_footing rfl).trans ?_
  change (if _ then _ else _ : Engine σ).footing = _
  split
  next => rw [logAll_footing, logAll_footing]
  next => rw [logAll_footing]

theorem applyJobs_footing (jobs : List Job) (s : Summary) (e : Engine σ) :
    (jobs.foldl applyJob (s, e)).2.footing = e.footing := by
  induction jobs generalizing s e with
  | nil => rfl
  | cons j rest ih => exact (ih _ _).trans (applyJob_footing s e j)

theorem applyBatch_footing (e : Engine σ) :
    e.applyBatch.2.footing =
      { e.footing with busy := false, heard := e.footing.heard ++ [.drained e.applyBatch.1] } := by
  have applied := applyJobs_footing e.batchJobs {} { e with jobs := [], abandoned := [] }
  have noted (d : Engine σ) (jobs : List Job) (s : Summary) : (d.note (.drained jobs s)).footing =
      { d.footing with heard := d.footing.heard ++ [.drained s] } := by
    simp [footing, isBusy, signs, note, Sign.of?]
  refine (noted _ _ _).trans ?_
  rw [applied]
  rfl

omit [Workshop σ] in
theorem tell_footing (e : Engine σ) (event : HostEvent) :
    (e.tell event).footing = { e.footing with heard := e.footing.heard ++ [.host event] } := by
  simp [footing, isBusy, signs, tell, note, Sign.of?]

omit [Workshop σ] in
theorem releaseHost_footing (e : Engine σ) :
    e.releaseHost.footing =
      { e.footing with
        suspended := false
        heard := e.footing.heard ++ if e.footing.suspended then [.host .release] else [] } := by
  unfold releaseHost
  split
  next h =>
    rw [tell_footing]
    simp [footing, h, isBusy, signs]
  next h => simp [footing, h]

omit [Workshop σ] in
theorem replayEntry_footing (e : Engine σ) (s : Summary) :
    (e.replayEntry s).footing =
      { e.footing with
        deferred := false
        heard := e.footing.heard ++
          if e.footing.deferred && !s.hasErrors then [.host .enterRestricted] else [] } := by
  have asked : ({ e with deferredEntry := false } : Engine σ).footing =
      { e.footing with deferred := false } := rfl
  have wish : e.footing.deferred = e.deferredEntry := rfl
  unfold replayEntry
  split
  next h =>
    dsimp only
    split
    next bad => simp [asked, bad]
    next good => simp [tell_footing, asked, wish, h, good]
  next h => simp [footing, h]

theorem endBatch_footing_step (e : Engine σ) (busy : e.footing.busy = true) :
    Footing.Step e.footing e.endBatch.2.footing := by
  have ended : e.endBatch.2.footing =
      ⟨false, false, false, e.footing.heard ++ e.footing.farewell e.applyBatch.1⟩ := by
    unfold endBatch
    dsimp only
    rw [replayEntry_footing, tell_footing, releaseHost_footing, persist_footing,
      applyBatch_footing]
    simp [Footing.farewell]
  rw [ended]
  exact .drain e.applyBatch.1 busy

theorem closeBatch_footing_steps (e : Engine σ) (now : Nat) (busy : e.footing.busy = true) :
    Footing.Steps e.footing (e.closeBatch now).2.footing := by
  refine .head (endBatch_footing_step e busy) ?_
  unfold closeBatch
  dsimp only
  split
  next => exact promote_footing_steps _ now
  next => exact .refl

theorem collect_footing (e : Engine σ) (now : Nat) : (e.collect now).footing = e.footing := by
  unfold collect
  split
  next => rfl
  next w _ =>
    have free : ({ e with inFlight := none }.note (.collected w.job)).footing = e.footing :=
      note_footing (e := { e with inFlight := none }) rfl
    dsimp only
    split
    next => rfl
    next => rw [finishJob_footing, free]
    next => rw [finishJob_footing, error_footing, free]

omit [Workshop σ] in
theorem withAbandoned_footing (e : Engine σ) (more : List Job) (k : Job) :
    { e with abandoned := more ++ [k] }.footing = { e.footing with busy := true } := by
  simp [footing, isBusy, signs]

/-- A job that is given up stays with the batch. -/
theorem abandon_footing {e : Engine σ} (j : Job) (now : Nat) (busy : e.footing.busy = true) :
    (e.abandon j now).footing = e.footing := by
  unfold abandon
  dsimp only
  refine (persist_footing _).trans ((withAbandoned_footing _ _ _).trans ?_)
  rw [error_footing]
  change { (e.cancelJob j).footing with busy := true } = e.footing
  rw [cancelJob_footing, ← busy]

theorem expire_footing_steps (e : Engine σ) (now : Nat) :
    Footing.Steps e.footing (e.expire now).2.2.footing := by
  unfold expire
  split
  next => exact .refl
  next j h =>
    split
    next =>
      have given := abandon_footing j now (busy_of_find h)
      rw [← given]
      exact drain_footing_steps _ now
    next => exact .refl

theorem advance_footing_steps (e : Engine σ) (now : Nat) :
    Footing.Steps e.footing (e.advance now).2.footing := by
  unfold advance
  split
  next => exact drain_footing_steps e now
  next => exact .refl

theorem settle_footing_steps (e : Engine σ) (now : Nat) :
    Footing.Steps e.footing (e.settle now).2.footing := by
  unfold settle
  split
  next h =>
    simp only [Bool.and_eq_true] at h
    exact closeBatch_footing_steps e now h.2
  next => exact .refl

theorem pollAt_footing_steps (e : Engine σ) (now : Nat) :
    Footing.Steps e.footing (e.pollAt now).2.footing := by
  rw [← e.collect_footing now]
  exact (expire_footing_steps _ now).trans <| (advance_footing_steps _ now).trans
    (settle_footing_steps _ now)

theorem breatheAndPoll_footing_steps (e : Engine σ) :
    Footing.Steps e.footing e.breatheAndPoll.footing := by
  rw [← e.breathe_footing]
  exact pollAt_footing_steps _ _

theorem enqueueAt_footing_steps (e : Engine σ) (master : Path) (immediate : Bool) (now : Nat) :
    Footing.Steps e.footing (e.enqueueAt master immediate now).2.footing :=
  enqueueAt_preserves (P := fun d => Footing.Steps e.footing d.footing)
    (fun h => h.trans (breatheAndPoll_footing_steps _)) (fun h => by rwa [passTime_footing])
    (e.submit_footing_steps master immediate now)

theorem parts_footing_steps (e : Engine σ) :
    PartsKeep fun d : Engine σ => Footing.Steps e.footing d.footing where
  read _ _ h := h
  log lines h := by rwa [logAll_footing]
  warn message h := by rwa [warn_footing]
  park _ h := h
  persist h := by rwa [persist_footing]
  enqueue {d} master _ h := h.trans (d.enqueueAt_footing_steps master false d.clock)

theorem exitRestricted_footing_steps (e : Engine σ) (now : Nat) :
    Footing.Steps e.footing (e.exitRestricted now).footing := by
  unfold exitRestricted
  split
  next => exact .refl
  next =>
    rw [← e.changeMode_footing .editing]
    exact promote_footing_steps _ now

omit [Workshop σ] in
/-- A wish for the restricted mode is put off while a batch is outstanding. -/
theorem tryRestricted_footing_steps (e : Engine σ) :
    Footing.Steps e.footing e.tryRestricted.2.footing := by
  unfold tryRestricted
  split
  next busy =>
    rw [tell_footing]
    exact .single (.defer busy)
  next => rw [changeMode_footing]

/-- Where everything is called off, the host may rebuild again unless finished jobs are left. -/
theorem cancelAll_footing (e : Engine σ) :
    (e.cancelAll.2.isBusy = true → e.isBusy = true) ∧
      e.cancelAll.2.footing =
        ⟨e.cancelAll.2.isBusy, e.suspended && e.cancelAll.2.isBusy, false,
          e.signs ++ e.footing.relief e.cancelAll.2.isBusy⟩ := by
  let dropped := e.cancelWorker.jobs.filter fun j => !j.isComplete
  let quit : Engine σ :=
    { e.cancelWorker with
      jobs := e.cancelWorker.jobs.filter Job.isComplete
      deferredEntry := false }.noteAll (dropped.map fun j : Job => .dropped j.id)
  have stopped := e.cancelWorker_footing
  have quit_footing : quit.footing =
      { e.footing with busy := quit.isBusy, deferred := false } := by
    rw [← stopped]
    refine noteAll_footing fun event dropped => ?_
    obtain ⟨j, _, rfl⟩ := List.mem_map.mp dropped
    rfl
  have gone : e.cancelAll.2.footing =
      ⟨quit.isBusy, e.suspended && quit.isBusy, false,
        e.signs ++ e.footing.relief quit.isBusy⟩ := by
    refine (persist_footing (if quit.isBusy then quit else quit.releaseHost)).trans ?_
    split
    next left =>
      rw [quit_footing, left]
      simp [Footing.relief, footing]
    next none_ =>
      rw [releaseHost_footing, quit_footing]
      cases h : e.suspended <;> simp [Footing.relief, footing, none_, h]
  have same : e.cancelAll.2.isBusy = quit.isBusy := congrArg Footing.busy gone
  rw [same]
  refine ⟨fun left => ?_, gone⟩
  have busy : e.cancelWorker.isBusy = true := by
    revert left
    simp only [quit, noteAll, isBusy]
    cases e.cancelWorker.jobs <;> simp
  exact (congrArg Footing.busy stopped).symm.trans busy

theorem rebuildGraph_footing (e : Engine σ) : e.rebuildGraph.2.footing = e.footing := by
  unfold rebuildGraph
  split
  next => rfl
  next =>
    dsimp only
    split <;> exact logAll_footing _ _

theorem rebuildIfRequired_footing (e : Engine σ) :
    e.rebuildIfRequired.2.footing = e.footing := by
  unfold rebuildIfRequired
  have same := e.rebuildGraph_footing
  split
  next => split <;> simp_all
  next => rfl

/-- Whatever happens but an end of a batch from outside and the end of everything. -/
theorem act_footing_steps (e : Engine σ) (a : Act σ) (by_rule : a.endsBatch = false)
    (goes_on : a ≠ .cancelAll) : Footing.Steps e.footing (e.act a).footing := by
  cases a with
  | enqueue master immediate now => exact e.enqueueAt_footing_steps master immediate now
  | drainQueue now => exact e.drain_footing_steps now
  | poll now => exact e.pollAt_footing_steps now
  | workerFinished id o now => exact e.finishJob_footing id o now ▸ .refl
  | queueDrained now => cases by_rule
  | tryRestricted => exact e.tryRestricted_footing_steps
  | exitRestricted now => exact e.exitRestricted_footing_steps now
  | setMode mode now =>
    cases mode with
    | editing => exact e.exitRestricted_footing_steps now
    | restricted => exact e.changeMode_footing .restricted ▸ .refl
  | sourceChanged p => exact e.parts_footing_steps.sourceChanged p .refl
  | compileAll force => exact e.parts_footing_steps.compileAll force .refl
  | compileFile p immediate =>
    refine e.parts_footing_steps.compileFile (fun {d} master h => ?_) p .refl
    exact h.trans (d.enqueueAt_footing_steps master immediate d.clock)
  | cancelAll => exact absurd rfl goes_on
  | shutdown => exact e.cancelWorker_footing ▸ .refl
  | rebuildGraph => exact e.rebuildGraph_footing ▸ .refl
  | rebuildIfRequired => exact e.rebuildIfRequired_footing ▸ .refl
  | restore s => exact e.parts_footing_steps.restore s .refl
  | loadAndRestore => exact e.parts_footing_steps.loadAndRestore .refl
  | siteChanged site => exact .refl
  | workerTurn state => exact .refl
  | release master => exact e.release_footing master ▸ .refl
  | timePasses millis => exact .refl

end Engine

end StoryBuild
