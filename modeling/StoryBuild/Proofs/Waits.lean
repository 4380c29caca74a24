import StoryBuild.Proofs.Polling
import StoryBuild.Proofs.Tending

namespace StoryBuild

/-- Nothing is queued, and nothing is dropped. -/
def Rules.still : Rules :=
  { keeping with queue := fun _ => False }

/-- Whether an engine is waited for: it is looked at, its workers go on, or time passes. -/
def Act.IsWait {σ : Type} : Act σ → Prop
  | .poll _ => True
  | .workerTurn _ => True
  | .release _ => True
  | .timePasses _ => True
  | _ => False

namespace Engine

variable {σ : Type} {e d f : Engine σ}

/-- What starting, collecting and giving up compiles leaves alone. -/
structure SameGround (e d : Engine σ) : Prop where
  options : d.options = e.options
  graph : d.graph = e.graph
  pending : d.pending = e.pending
  mode : d.mode = e.mode
  deferred : d.deferredEntry = e.deferredEntry

theorem SameGround.refl (e : Engine σ) : e.SameGround e :=
  ⟨rfl, rfl, rfl, rfl, rfl⟩

theorem SameGround.trans (h : e.SameGround d) (h' : d.SameGround f) : e.SameGround f :=
  ⟨h'.options.trans h.options, h'.graph.trans h.graph, h'.pending.trans h.pending,
    h'.mode.trans h.mode, h'.deferred.trans h.deferred⟩

theorem note_ground (e : Engine σ) (event : Event) : e.SameGround (e.note event) :=
  ⟨rfl, rfl, rfl, rfl, rfl⟩

theorem persist_ground [Storage σ] (e : Engine σ) : e.SameGround e.persist := by
  unfold persist
  split
  next => exact .refl e
  next =>
    dsimp only
    split <;> exact ⟨rfl, rfl, rfl, rfl, rfl⟩

theorem cancelWorker_ground (e : Engine σ) : e.SameGround e.cancelWorker := by
  unfold cancelWorker
  split
  next => exact .refl e
  next =>
    dsimp only
    split <;> exact ⟨rfl, rfl, rfl, rfl, rfl⟩

theorem cancelJob_ground (e : Engine σ) (j : Job) : e.SameGround (e.cancelJob j) := by
  unfold cancelJob
  split
  next => exact e.cancelWorker_ground
  next => exact .refl e

theorem resume_ground [Storage σ] (e : Engine σ) (stray : Bool) (w : Worker) :
    e.SameGround (e.resume stray w).2 := by
  unfold resume
  split
  next => split <;> exact ⟨rfl, rfl, rfl, rfl, rfl⟩
  next => exact .refl e

theorem resumeStrays_ground [Storage σ] (chosen : Worker → Bool) (strays : List Worker)
    (e : Engine σ) : e.SameGround (e.resumeStrays chosen strays).2 := by
  induction strays generalizing e with
  | nil => exact .refl e
  | cons w rest ih =>
    unfold resumeStrays
    split
    next => exact (e.resume_ground true w).trans (ih _)
    next => exact ih e

theorem release_ground [Storage σ] (e : Engine σ) (master : Option Path) :
    e.SameGround (e.release master) := by
  unfold release
  dsimp only
  have freed := resumeStrays_ground (fun w => master.all fun p => w.request.master == p) e.strays e
  generalize e.resumeStrays _ e.strays = result at freed
  have kept : e.SameGround { result.2 with strays := result.1 } :=
    freed.trans ⟨rfl, rfl, rfl, rfl, rfl⟩
  split
  next w _ =>
    split
    next =>
      have resumed := kept.trans (resume_ground { result.2 with strays := result.1 } false w)
      exact resumed.trans ⟨rfl, rfl, rfl, rfl, rfl⟩
    next => exact kept
  next => exact kept

variable [Workshop σ]

theorem finishJob_ground (e : Engine σ) (id : Nat) (o : Outcome) (now : Nat) :
    e.SameGround (e.finishJob id o now) := by
  unfold finishJob
  split
  next => exact .refl e
  next =>
    have finished : e.SameGround (e.updateJob id fun j => j.finish o now) :=
      ⟨rfl, rfl, rfl, rfl, rfl⟩
    refine .trans ?_ (persist_ground _)
    split
    next => exact finished.trans (note_ground _ _)
    next => exact finished

theorem startJob_ground (e : Engine σ) (j : Job) (now : Nat) : e.SameGround (e.startJob j now) := by
  have begun : e.SameGround (e.markStarted j now) := ⟨rfl, rfl, rfl, rfl, rfl⟩
  have ran (d : Engine σ) (r : Request) : d.SameGround (d.runHere r).2 := by
    unfold runHere
    dsimp only
    split <;> exact ⟨rfl, rfl, rfl, rfl, rfl⟩
  have lost (d : Engine σ) (r : Request) : d.SameGround (d.loseWorker r) :=
    ⟨rfl, rfl, rfl, rfl, rfl⟩
  have sent (d : Engine σ) (r : Request) : d.SameGround (d.sendWorker r) :=
    ⟨rfl, rfl, rfl, rfl, rfl⟩
  exact startJob_cases (P := e.SameGround) e j now
    (fun _ _ => begun.trans (finishJob_ground _ _ _ _))
    (fun _ _ _ => (begun.trans (ran _ _)).trans (finishJob_ground _ _ _ _))
    (fun _ _ _ _ => (begun.trans (lost _ _)).trans (persist_ground _))
    (fun _ _ _ _ => (begun.trans (sent _ _)).trans (persist_ground _))

theorem drain_ground (e : Engine σ) (now : Nat) : e.SameGround (e.drain now).2 :=
  drain_preserves (P := e.SameGround) (fun _ _ _ h => h.trans (startJob_ground _ _ now)) (.refl e)

theorem collect_ground (e : Engine σ) (now : Nat) : e.SameGround (e.collect now) := by
  unfold collect
  split
  next => exact .refl e
  next w _ =>
    have free : e.SameGround ({ e with inFlight := none }.note (.collected w.job)) :=
      ⟨rfl, rfl, rfl, rfl, rfl⟩
    dsimp only
    split
    next => exact .refl e
    next => exact free.trans (finishJob_ground _ _ _ _)
    next => exact (free.trans (note_ground _ _)).trans (finishJob_ground _ _ _ _)

theorem abandon_ground (e : Engine σ) (j : Job) (now : Nat) : e.SameGround (e.abandon j now) := by
  unfold abandon
  refine .trans ?_ (persist_ground _)
  exact (e.cancelJob_ground j).trans ⟨rfl, rfl, rfl, rfl, rfl⟩

theorem expire_ground (e : Engine σ) (now : Nat) : e.SameGround (e.expire now).2.2 := by
  unfold expire
  split
  next => exact .refl e
  next j _ =>
    split
    next => exact (e.abandon_ground j now).trans (drain_ground _ now)
    next => exact .refl e

theorem advance_ground (e : Engine σ) (now : Nat) : e.SameGround (e.advance now).2 := by
  unfold advance
  split
  next => exact e.drain_ground now
  next => exact .refl e

theorem beforeEnd_ground (e : Engine σ) (now : Nat) : e.SameGround (e.beforeEnd now) :=
  (e.collect_ground now).trans <| (expire_ground _ now).trans (advance_ground _ now)

theorem endBatch_pending (e : Engine σ) : e.endBatch.2.pending = e.pending := by
  obtain ⟨deeds, graph, site, -, -, -, same⟩ := e.applyBatch_desk .due true
  have applied : e.applyBatch.2.pending = e.pending := congrArg Desk.pending same
  have released (d : Engine σ) : d.releaseHost.pending = d.pending := by
    unfold releaseHost
    split <;> rfl
  have replayed (d : Engine σ) (s : Summary) : (d.replayEntry s).pending = d.pending := by
    unfold replayEntry
    split
    next =>
      dsimp only
      split <;> rfl
    next => rfl
  change (replayEntry (tell _ _) _).pending = _
  rw [replayed]
  exact (released _).trans ((persist_ground _).pending.trans applied)

/-- If no master waits, the end of a batch is all. -/
theorem closeBatch_of_none_waits (none_ : e.pending.order = []) (now : Nat) :
    e.closeBatch now = e.endBatch := by
  have empty_ : e.endBatch.2.pending.isEmpty = true := by
    rw [endBatch_pending, Pending.isEmpty, none_]
    rfl
  unfold closeBatch
  dsimp only
  rw [empty_]
  simp

theorem settle_still (none_ : e.pending.order = []) (now : Nat) :
    Desk.Course Rules.still (e.desk .steady true) ((e.settle now).2.desk .steady true) ∧
      (e.settle now).2.pending.order = [] := by
  unfold settle
  split
  next =>
    dsimp only
    rw [closeBatch_of_none_waits none_]
    have waits : e.endBatch.2.pending.order = [] := by rw [endBatch_pending, none_]
    have ended : Desk.Course Rules.still (e.desk .steady true) (e.endBatch.2.desk .due true) :=
      endBatch_course e trivial fun _ _ _ => trivial
    exact ⟨ended.tail (.rest rfl (.inr waits)), waits⟩
  next => exact ⟨.refl, none_⟩

/-- As long as no master waits, an engine that is waited for makes no jobs. -/
theorem wait_still {a : Act σ} (wait : a.IsWait) (none_ : e.pending.order = []) :
    Desk.Course Rules.still (e.desk .steady true) ((e.act a).desk .steady true) ∧
      (e.act a).pending.order = [] := by
  cases a with
  | poll now =>
    have looked : Desk.Course Rules.still (e.desk .steady true)
        ((e.beforeEnd now).desk .steady true) :=
      (collect_course Stage.maySave_steady e now).trans <|
        (expire_course Stage.maySave_steady _ now).trans
          (advance_course Stage.maySave_steady _ now)
    have waits : (e.beforeEnd now).pending.order = [] := by
      rw [(e.beforeEnd_ground now).pending, none_]
    obtain ⟨course, empty_⟩ := settle_still waits now
    exact ⟨looked.trans course, empty_⟩
  | workerTurn state =>
    have same : (e.act (.workerTurn state)).desk .steady true = e.desk .steady true := by
      simp only [act, desk, Option.map_map]
      rfl
    rw [same]
    exact ⟨.refl, none_⟩
  | release master =>
    refine ⟨e.release_course master true, ?_⟩
    change (e.release master).pending.order = []
    rw [(e.release_ground master).pending, none_]
  | timePasses millis => exact ⟨.refl, none_⟩
  | _ => exact wait.elim

theorem waits_still (waits : List (Act σ)) (only : ∀ a ∈ waits, a.IsWait)
    (none_ : e.pending.order = []) :
    Desk.Course Rules.still (e.desk .steady true) ((e.run waits).desk .steady true) ∧
      (e.run waits).pending.order = [] := by
  induction waits generalizing e with
  | nil => exact ⟨.refl, none_⟩
  | cons a rest ih =>
    obtain ⟨first, none'⟩ := wait_still (only a List.mem_cons_self) none_
    obtain ⟨others, empty_⟩ := ih (fun b hb => only b (List.mem_cons_of_mem a hb)) none'
    exact ⟨first.trans others, empty_⟩

end Engine

end StoryBuild
