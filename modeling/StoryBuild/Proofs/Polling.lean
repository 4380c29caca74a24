import StoryBuild.Proofs.DeskFacts
import StoryBuild.Proofs.Standing

namespace StoryBuild.Engine

open StoryBuild.Core

variable {σ : Type} [Workshop σ] {e d : Engine σ} {kind : Job → Prop} {now : Nat} {j : Job}

theorem addJob_stands (h : e.core.Lively kind) {master : Path}
    (accepted : e.refusal? master = none) (immediate : Bool) :
    (e.addJob master immediate).core.Stands kind := by
  have moves : Moves e.core (e.addJob master immediate).core :=
    addJob_steps immediate trivial accepted
  have ordered := steps_preserve step_ordered moves h.ordered
  rw [addJob_core] at ordered ⊢
  refine ⟨ordered, fun j hj queued => ?_, ?_⟩
  · rcases List.mem_append.mp hj with old | new
    · exact h.unended j old queued
    · rw [List.mem_singleton.mp new]
      rfl
  · rcases h.stand with rests | ⟨j, good, works⟩
    · refine .inl ⟨fun j hj => ?_, rests.free⟩
      rcases List.mem_append.mp hj with old | new
      · exact rests.idle j old
      · rw [List.mem_singleton.mp new]
        rfl
    · exact .inr ⟨j, good, List.mem_append_left _ works.mem, works.compiling,
        works.watched.imp_right (.imp_right (List.mem_cons_of_mem _))⟩

theorem drain_lively (h : e.core.Stands kind) (admits : Admits kind now) :
    (e.drain now).2.core.Lively kind :=
  (drain_drains h.ordered now).lively h admits

theorem submit_lively (h : e.core.Lively kind) (admits : Admits kind now) (master : Path)
    (immediate : Bool) : (e.submit master immediate now).2.core.Lively kind := by
  unfold submit
  split
  next => rwa [noteRefusal_core]
  next accepted => exact drain_lively (addJob_stands h accepted immediate) admits

theorem promote_lively (h : e.core.Lively kind) (admits : Admits kind now) :
    (e.promote now).core.Lively kind :=
  promote_preserves (P := fun d => d.core.Lively kind) (fun _ h => h)
    (fun _ h => by rwa [note_core rfl]) (fun master h => submit_lively h admits master false)
    (fun h => by rwa [persist_core]) h

omit [Workshop σ] in
/-- A worker that is out compiles the job that is being compiled. -/
theorem worker_works (h : e.core.Stands kind) {w : Worker} (hw : e.inFlight = some w) :
    ∃ j, kind j ∧ e.core.Works j ∧ j.id = w.job := by
  have out : e.core.worker = some w.job := by simp [core, hw]
  rcases h.stand with rests | ⟨j, good, works⟩
  · rw [rests.free] at out
    cases out
  · rcases works.watched with mine | ⟨free, -⟩
    · exact ⟨j, good, works, Option.some.inj (mine.symm.trans out)⟩
    · rw [free] at out
      cases out

omit [Workshop σ] in
/-- A job whose worker is told to stop goes on being compiled, until its time is over. -/
theorem cancelWorker_lively (h : e.core.Lively kind) : e.cancelWorker.core.Lively kind := by
  cases hw : e.inFlight with
  | none => rwa [cancelWorker_idle hw]
  | some w =>
    obtain ⟨j, good, works, mine⟩ := worker_works h.toStands hw
    rw [cancelWorker_core hw]
    have still : Works j { e.core with worker := none, story := .fired w.job :: e.story } :=
      ⟨works.mem, works.compiling, .inr ⟨rfl, by simp [mine]⟩⟩
    exact still.lively ⟨h.ordered.order, h.ordered.below⟩ h.unended good

theorem cancelAll_lively (h : e.core.Lively kind) : e.cancelAll.2.core.Lively kind := by
  have moves : Moves e.core e.cancelAll.2.core := e.cancelAll_steps
  have ordered := steps_preserve step_ordered moves h.ordered
  have free : e.cancelWorker.core.worker = none := by
    cases hw : e.inFlight with
    | none => simp [cancelWorker_idle hw, core, hw]
    | some w => rw [cancelWorker_core hw]
  rw [cancelAll_core] at ordered ⊢
  have complete : ∀ j ∈ e.jobs.filter Job.isComplete, j.isComplete = true :=
    fun j hj => (List.mem_filter.mp hj).2
  have rests : Rests { e.cancelWorker.core with
      jobs := e.jobs.filter Job.isComplete
      story := ((e.jobs.filter fun k => !k.isComplete).map fun k =>
        Event.dropped k.id).reverse ++ e.cancelWorker.story } :=
    ⟨fun j hj => Job.not_compiling_of_complete (complete j hj), free⟩
  exact rests.lively ordered fun j hj => Job.not_queued_of_complete (complete j hj)

/-- The result of the outstanding worker is taken in, if it is there. -/
theorem collect_cases (h : e.core.Lively kind) (now : Nat) :
    (e.collect now = e ∧ e.inFlight.all Worker.isWaiting = true) ∨
      e.inFlight.all Worker.isWaiting = false ∧
        ∃ j before after o, j.isCompiling = true ∧ e.core.Place before j after ∧
          (e.collect now).core =
            { e.core with
              jobs := before ++ j.finish o now :: after
              worker := none
              story := .collected j.id :: e.story } := by
  cases hw : e.inFlight with
  | none => exact .inl ⟨by simp [collect, hw], rfl⟩
  | some w =>
    obtain ⟨j, -, ⟨mem, compiling, -⟩, mine⟩ := worker_works h.toStands hw
    obtain ⟨before, after, place⟩ := h.ordered.place_compiling mem compiling
    have finished {d : Engine σ} (same : d.core = ({ e with inFlight := none }.note
        (.collected w.job)).core) (o : Outcome) : (d.finishJob w.job o now).core =
          { e.core with
            jobs := before ++ j.finish o now :: after
            worker := none
            story := .collected j.id :: e.story } := by
      have place' : d.core.Place before j after := by
        rw [same]
        exact place.replace place.jobs
      have order' : d.core.Ordered := by
        rw [same]
        exact ⟨h.ordered.order, h.ordered.below⟩
      rw [finishJob_place place' order' compiling mine, same, mine]
      rfl
    cases state : w.state with
    | waiting lines deaf next =>
      exact .inl ⟨by simp [collect, hw, state], by simp [Worker.isWaiting, state]⟩
    | finished o =>
      refine .inr ⟨by simp [Worker.isWaiting, state], j, before, after, o, compiling, place, ?_⟩
      simp only [collect, hw, state]
      exact finished rfl o
    | lost =>
      refine .inr ⟨by simp [Worker.isWaiting, state], j, before, after, lostOutcome w, compiling,
        place, ?_⟩
      simp only [collect, hw, state]
      exact finished (error_core _ _) _

theorem collect_stands (h : e.core.Lively kind) (now : Nat) :
    (e.collect now).core.Stands kind := by
  rcases collect_cases h now with ⟨same, -⟩ | ⟨-, j, before, after, o, compiling, place, same⟩
  · rw [same]
    exact h.toStands
  · have order : (e.collect now).core.Ordered := by
      rw [same]
      exact place.replace_ordered h.ordered rfl rfl rfl rfl
    rw [same] at order ⊢
    have rests : Rests { e.core with
        jobs := before ++ j.finish o now :: after
        worker := none
        story := .collected j.id :: e.story } := ⟨Place.idle (place.replace rfl) rfl, rfl⟩
    refine ⟨order, fun x hx queued => ?_, .inl rests⟩
    exact h.unended x (place.queued_before rfl x hx queued) queued

omit [Workshop σ] in
/-- The worker of the job that is being compiled is told to stop, if it was not told before. -/
theorem cancelJob_works (works : e.core.Works j) : ∃ story, .fired j.id ∈ story ∧
    (e.cancelJob j).core = { e.core with worker := none, story } := by
  unfold cancelJob
  rcases works.watched with mine | ⟨free, fired⟩
  · obtain ⟨w, hw, id⟩ := Option.map_eq_some_iff.mp (show e.inFlight.map Worker.job = _ from mine)
    refine ⟨.fired j.id :: e.story, List.mem_cons_self, ?_⟩
    rw [if_pos (by simp [hw, id]), cancelWorker_core hw, id]
  · have none_ : e.inFlight = none := by simpa [core] using free
    refine ⟨e.story, fired, ?_⟩
    rw [if_neg (by simp [none_]), ← free]
    rfl

/-- A job that is given up leaves the queue to those behind it, and its worker is told to stop. -/
theorem abandon_place {before after : List Job} (place : e.core.Place before j after)
    (works : e.core.Works j) (order : e.core.Ordered) (now : Nat) :
    ∃ given story, given.id = j.id ∧ given.path = j.path ∧ given.artifact = none ∧
      .fired j.id ∈ story ∧
      (e.abandon j now).core =
        { e.core with
          jobs := before ++ after
          abandoned := e.abandoned ++ [given]
          worker := none
          story } := by
  obtain ⟨story, fired, same⟩ := cancelJob_works works
  refine ⟨{ j.complete now with
    lines := e.partialLines j
    unhandled := j.unhandled ++ [e.timeoutMessage j (e.partialLines j)]
    artifact := none }, story, rfl, rfl, rfl, fired, ?_⟩
  let left : Engine σ :=
    { e.cancelJob j with jobs := e.jobs.filter fun k => !(k.id == j.id) }
  have abandoned : left.abandoned = e.abandoned := congrArg Core.abandoned same
  have left_core : left.core = { (e.cancelJob j).core with jobs := before ++ after } := by
    rw [← place.away order]
    rfl
  have reported := left.error_core "compile timed out; abandoning job"
  unfold abandon
  refine (persist_core _).trans ((withAbandoned_core (left.error _) _).trans ?_)
  rw [reported, abandoned_eq_of_core reported, left_core, same, abandoned]

theorem abandon_stands (h : e.core.Stands kind) (works : e.core.Works j) (now : Nat) :
    (e.abandon j now).core.Stands kind ∧ (e.abandon j now).core.Rests := by
  obtain ⟨before, after, place⟩ := h.ordered.place_compiling works.mem works.compiling
  obtain ⟨given, story, -, -, -, -, same⟩ := abandon_place place works h.ordered now
  have shorter : (before ++ after).Sublist e.core.jobs := by
    rw [place.jobs]
    exact (List.sublist_cons_self j after).append_left before
  have idle : ∀ x ∈ before ++ after, x.isCompiling = false := by
    intro x hx
    rcases List.mem_append.mp hx with front | back
    · exact Job.not_compiling_of_complete (place.front x front)
    · exact Job.not_compiling_of_queued (place.back x back)
  rw [same]
  have rests : Rests { e.core with
      jobs := before ++ after
      abandoned := e.abandoned ++ [given]
      worker := none
      story } := ⟨idle, rfl⟩
  refine ⟨⟨h.ordered.sublist shorter (Nat.le_refl _), fun x hx => ?_, .inl rests⟩, rests⟩
  exact h.unended x (shorter.subset hx)

omit [Workshop σ] in
/-- The job that is being compiled is the only one. -/
theorem find_compiling (h : e.core.Stands kind) :
    (e.jobs.find? Job.isCompiling = none ∧ e.core.Rests) ∨
      ∃ j, e.jobs.find? Job.isCompiling = some j ∧ kind j ∧ e.core.Works j := by
  rcases h.stand with rests | ⟨j, good, works⟩
  · refine .inl ⟨List.find?_eq_none.mpr fun j hj => ?_, rests⟩
    simp [rests.idle j hj]
  · obtain ⟨before, after, place⟩ := h.ordered.place_compiling works.mem works.compiling
    exact .inr ⟨j, place.find_compiling works.compiling, good, works⟩

omit [Workshop σ] in
theorem Admits.inTime (admits : Admits kind now) (timeout : Nat) :
    Admits (fun j => kind j ∧ j.elapsed now ≤ timeout) now := by
  intro j wall open_
  refine ⟨admits j wall open_, ?_⟩
  simp [Job.elapsed, Job.start, open_]

/-- A job that is still being compiled is within its time. -/
theorem expire_stands (h : e.core.Stands kind) (admits : Admits kind now) :
    (e.expire now).2.2.core.Stands fun j => kind j ∧ j.elapsed now ≤ e.options.timeout := by
  unfold expire
  rcases find_compiling h with ⟨none_, rests⟩ | ⟨j, found, good, works⟩
  · rw [none_]
    exact ⟨h.ordered, h.unended, .inl rests⟩
  · rw [found]
    dsimp only
    split
    next =>
      obtain ⟨stands, rests⟩ := abandon_stands h works now
      have given : (e.abandon j now).core.Stands
          fun j => kind j ∧ j.elapsed now ≤ e.options.timeout :=
        ⟨stands.ordered, stands.unended, .inl rests⟩
      exact (drain_lively given (Admits.inTime admits _)).toStands
    next inTime => exact ⟨h.ordered, h.unended, .inr ⟨j, ⟨good, Nat.le_of_not_lt inTime⟩, works⟩⟩

theorem advance_lively (h : e.core.Stands kind) (admits : Admits kind now) :
    (e.advance now).2.core.Lively kind := by
  unfold advance
  split
  next => exact drain_lively h admits
  next left =>
    refine ⟨h, fun rests j hj => ?_⟩
    simp only [(idle_iff.mp rests).1, hasQueued, Bool.not_false, Bool.true_and, Bool.not_eq_true,
      List.any_eq_false] at left
    simpa using left j hj

omit [Workshop σ] in
/-- As long as a job waits, one is being compiled. -/
theorem moves_on (h : e.core.Lively kind) (waits : e.hasQueued = true) : e.isCompiling = true := by
  rcases h.stand with rests | ⟨j, _, works⟩
  · obtain ⟨j, hj, queued⟩ := List.any_eq_true.mp waits
    simp [h.moving rests j hj] at queued
  · exact List.any_eq_true.mpr ⟨j, works.mem, works.compiling⟩

/-- After the record of a batch, only the mode can change. -/
theorem endBatch_core (e : Engine σ) : ∃ mode events, e.endBatch.2.core =
    { e.applyBatch.2.core with mode, story := events ++ e.applyBatch.2.story } := by
  let told := e.applyBatch.2.persist.releaseHost.tell (.stackCompleted e.applyBatch.1)
  have same : told.core = e.applyBatch.2.core := by
    rw [tell_core, releaseHost_core, persist_core]
  change ∃ mode events, (told.replayEntry e.applyBatch.1).core = _
  rw [← core_story, ← same]
  unfold replayEntry
  split
  next =>
    dsimp only
    split
    next => exact ⟨told.mode, [], warn_core _ _⟩
    next => exact ⟨.restricted, [.mode .restricted], tell_core _ _⟩
  next => exact ⟨told.mode, [], rfl⟩

theorem endBatch_lively (rests : e.core.Rests) : e.endBatch.2.core.Lively kind := by
  obtain ⟨produced, -, -, same⟩ := e.applyBatch_core
  obtain ⟨mode, events, ended⟩ := e.endBatch_core
  have applied : e.applyBatch.2.core.Lively kind := by
    rw [same]
    have done : Rests { e.core with
        jobs := []
        abandoned := []
        story := .drained e.core.batch e.applyBatch.1 ::
          (produced.map Event.produced ++ e.story) } := ⟨by simp, rests.free⟩
    exact done.lively ⟨.nil, by simp⟩ (by simp)
  rw [ended]
  exact applied.onward rfl rfl rfl (List.subset_append_right _ _)

/-- The end of a batch is told. -/
theorem closeBatch_tells (e : Engine σ) (now : Nat) :
    .drained e.batchJobs e.applyBatch.1 ∈ (e.closeBatch now).2.trace := by
  have recorded : .drained e.batchJobs e.applyBatch.1 ∈ e.endBatch.2.core.story := by
    obtain ⟨produced, -, -, same⟩ := e.applyBatch_core
    obtain ⟨mode, events, ended⟩ := e.endBatch_core
    rw [ended, ← core_story, same]
    exact List.mem_append_right _ List.mem_cons_self
  have onward : Moves e.endBatch.2.core (e.closeBatch now).2.core :=
    e.closeBatch_onward now fun _ _ => trivial
  exact (List.mem_filter.mp ((steps_story onward).subset recorded)).1

theorem closeBatch_lively (rests : e.core.Rests) (admits : Admits kind now) :
    (e.closeBatch now).2.core.Lively kind := by
  have ended : e.endBatch.2.core.Lively kind := endBatch_lively rests
  unfold closeBatch
  dsimp only
  split
  next => exact promote_lively ended admits
  next => exact ended

theorem settle_lively (h : e.core.Lively kind) (admits : Admits kind now) :
    (e.settle now).2.core.Lively kind := by
  unfold settle
  split
  next ended =>
    simp only [Bool.and_eq_true, Bool.not_eq_true'] at ended
    have rests : e.core.Rests := by
      refine h.stand.resolve_right fun ⟨j, _, works⟩ => ?_
      have busy : e.isCompiling = true := List.any_eq_true.mpr ⟨j, works.mem, works.compiling⟩
      simp [ended.1.1] at busy
    exact closeBatch_lively rests admits
  next => exact h

/-- A look ends the batch if no work is left in it. -/
theorem settle_cases (h : e.core.Lively kind) (now : Nat) :
    ((e.settle now).1 = none ∧ (e.settle now).2 = e ∧
        (e.isBusy = true → e.isCompiling = true)) ∨
      ((e.settle now).1 = some e.applyBatch.1 ∧ (e.settle now).2 = (e.closeBatch now).2) := by
  unfold settle
  split
  next => exact .inr ⟨rfl, rfl⟩
  next goes_on =>
    refine .inl ⟨rfl, rfl, fun busy => ?_⟩
    cases idle : e.isCompiling with
    | true => rfl
    | false =>
      simp only [idle, busy, Bool.not_false, Bool.true_and, Bool.and_true, Bool.not_eq_true,
        Bool.not_eq_false'] at goes_on
      exact absurd (moves_on h goes_on) (by simp [idle])

/-- The engine after the parts of a look that come before the end of the batch. -/
def beforeEnd (e : Engine σ) (now : Nat) : Engine σ :=
  (((e.collect now).expire now).2.2.advance now).2

theorem pollAt_after (e : Engine σ) (now : Nat) :
    (e.pollAt now).2 = ((e.beforeEnd now).settle now).2 := rfl

theorem pollAt_completed (e : Engine σ) (now : Nat) :
    (e.pollAt now).1.completed = ((e.beforeEnd now).settle now).1 := rfl

theorem beforeEnd_course (e : Engine σ) (now : Nat) :
    Desk.Course Rules.free (e.desk .steady true) ((e.beforeEnd now).desk .steady true) :=
  (collect_course Stage.maySave_steady e now).trans <|
    (expire_course Stage.maySave_steady _ now).trans (advance_course Stage.maySave_steady _ now)

theorem beforeEnd_lively (h : e.core.Lively kind) (admits : Admits kind now) :
    (e.beforeEnd now).core.Lively fun j => kind j ∧ j.elapsed now ≤ e.options.timeout := by
  have options : (e.collect now).options = e.options :=
    Desk.course_options (collect_course (R := Rules.free) Stage.maySave_steady e now)
  have expired := expire_stands (collect_stands h now) admits
  rw [options] at expired
  exact advance_lively expired (Admits.inTime admits _)

/-- After a look the job that is being compiled is within its time. -/
theorem pollAt_lively (h : e.core.Lively kind) (admits : Admits kind now) :
    (e.pollAt now).2.core.Lively fun j => kind j ∧ j.elapsed now ≤ e.options.timeout := by
  rw [pollAt_after]
  exact settle_lively (beforeEnd_lively h admits) (Admits.inTime admits _)

theorem collect_keepsBatch (h : e.core.Lively kind) (now : Nat) :
    e.core.KeepsBatch (e.collect now).core := by
  rcases collect_cases h now with ⟨same, -⟩ | ⟨-, j, before, after, o, compiling, place, same⟩
  · rw [same]
    exact .refl _
  · rw [same]
    exact place.keepsBatch rfl rfl rfl (Job.not_complete_of_compiling compiling)

theorem abandon_keepsBatch (h : e.core.Stands kind) (works : e.core.Works j) (now : Nat) :
    e.core.KeepsBatch (e.abandon j now).core ∧
      (e.abandon j now).core.unfinished < e.core.unfinished := by
  obtain ⟨before, after, place⟩ := h.ordered.place_compiling works.mem works.compiling
  obtain ⟨given, story, -, path, -, -, same⟩ := abandon_place place works h.ordered now
  have fewer : (e.abandon j now).core.unfinished < e.core.unfinished :=
    place.fewer (Job.not_complete_of_compiling works.compiling) (by rw [same]) (Nat.le_refl _)
  refine ⟨⟨?_, Nat.le_of_lt fewer⟩, fewer⟩
  have last : ((after ++ e.abandoned).map Job.path ++ [j.path]).Perm
      (j.path :: (after ++ e.abandoned).map Job.path) := List.perm_append_singleton _ _
  rw [same, place.jobs]
  simpa [path] using last.append_left (before.map Job.path)

theorem expire_keepsBatch (h : e.core.Stands kind) (now : Nat) :
    e.core.KeepsBatch (e.expire now).2.2.core := by
  unfold expire
  rcases find_compiling h with ⟨none_, -⟩ | ⟨j, found, -, works⟩
  · rw [none_]
    exact .refl _
  · rw [found]
    dsimp only
    split
    next =>
      have given := (abandon_stands h works now).1
      exact (abandon_keepsBatch h works now).1.trans (drain_drains given.ordered now).keepsBatch
    next => exact .refl _

theorem advance_keepsBatch (order : e.core.Ordered) (now : Nat) :
    e.core.KeepsBatch (e.advance now).2.core := by
  unfold advance
  split
  next => exact (drain_drains order now).keepsBatch
  next => exact .refl _

theorem beforeEnd_keepsBatch (h : e.core.Lively kind) (admits : Admits kind now) :
    e.core.KeepsBatch (e.beforeEnd now).core := by
  have collected := collect_stands h now
  have expired := expire_stands collected admits
  exact (collect_keepsBatch h now).trans <| (expire_keepsBatch collected now).trans
    (advance_keepsBatch expired.ordered now)

/-- A look after the time of the compiling job finishes that job. So does a look at the result of
its worker, at any time. -/
theorem beforeEnd_fewer (h : e.core.Lively kind) (admits : Admits kind now) (works : e.core.Works j)
    (late : e.inFlight.all Worker.isWaiting = true → e.options.timeout < j.elapsed now) :
    (e.beforeEnd now).core.unfinished < e.core.unfinished := by
  have collected := collect_stands h now
  have advanced := advance_keepsBatch (expire_stands collected admits).ordered now
  refine Nat.lt_of_le_of_lt advanced.unfinished ?_
  rcases collect_cases h now with ⟨same, waits⟩ | ⟨-, k, before, after, o, compiling, place, same⟩
  · rw [same]
    rcases find_compiling h.toStands with ⟨-, rests⟩ | ⟨k, found, -, works'⟩
    · exact absurd rests works.busy
    · obtain ⟨before, after, place⟩ := h.ordered.place_compiling works.mem works.compiling
      obtain rfl : k = j := place.only works'.mem works'.compiling
      unfold expire
      rw [found]
      simp only [late waits, if_true]
      have given := (abandon_stands h.toStands works now).1
      exact Nat.lt_of_le_of_lt (drain_drains given.ordered now).keepsBatch.unfinished
        (abandon_keepsBatch h.toStands works now).2
  · refine Nat.lt_of_le_of_lt (expire_keepsBatch collected now).unfinished ?_
    refine place.fewer (Job.not_complete_of_compiling compiling) (by rw [same]) ?_
    simp [Job.finish, Job.complete, Job.isComplete]

/-- The one lemma about turns: they leave an engine lively. -/
theorem turn_lively (admits : ∀ now, Admits kind now) (turn : Turn e d) (h : e.core.Lively kind) :
    d.core.Lively kind := by
  cases turn with
  | aside same => rwa [same]
  | submit master immediate now => exact submit_lively h (admits now) master immediate
  | drain now => exact drain_lively h.toStands (admits now)
  | look now => exact (pollAt_lively h (admits now)).imp fun _ good => good.1
  | promote now => exact promote_lively h (admits now)
  | mode m => exact h.onward rfl rfl rfl (List.subset_cons_self _ _)
  | cancel => exact cancelAll_lively h
  | stop => exact cancelWorker_lively h

end StoryBuild.Engine
