import StoryBuild.Proofs.Polling
import StoryBuild.Proofs.RestrictedMode

namespace StoryBuild

/-- Whether a batch that ended had a job, and reported it as failed. -/
def FailedIn (trace : List Event) (j : Job) : Prop :=
  ∃ jobs s, .drained jobs s ∈ trace ∧ (∃ k ∈ jobs, k.id = j.id ∧ k.path = j.path) ∧
    j.path ∈ s.failed

/-- Whether a job is held as one that was given up, or was reported as failed. -/
def GivenUp (abandoned : List Job) (trace : List Event) (j : Job) : Prop :=
  (∃ k ∈ abandoned, k.id = j.id ∧ k.path = j.path ∧ k.artifact = none) ∨ FailedIn trace j

theorem FailedIn.mono {earlier trace : List Event} {j : Job} (h : FailedIn earlier j)
    (grown : earlier <:+ trace) : FailedIn trace j := by
  obtain ⟨jobs, s, ended, mine, failed⟩ := h
  exact ⟨jobs, s, grown.subset ended, mine, failed⟩

namespace Engine

variable {σ : Type} [Workshop σ]

/-- Jobs without an artifact are failures of their batch, and none is taken back. -/
theorem applyJobs_failed (jobs : List Job) (s : Summary) (e : Engine σ) :
    s.failed ⊆ (jobs.foldl applyJob (s, e)).1.failed ∧
      ∀ j ∈ jobs, j.artifact = none → j.path ∈ (jobs.foldl applyJob (s, e)).1.failed := by
  induction jobs generalizing s e with
  | nil => exact ⟨fun _ hp => hp, by simp⟩
  | cons j rest ih =>
    obtain ⟨kept, others⟩ := ih (applyJob (s, e) j).1 (applyJob (s, e) j).2
    have more : s.failed ⊆ (applyJob (s, e) j).1.failed := by
      simp only [applyJob, addResult]
      split
      next => exact List.subset_append_left _ _
      next => exact fun _ hp => hp
    refine ⟨fun _ hp => kept (more hp), fun k hk without => ?_⟩
    rcases List.mem_cons.mp hk with rfl | later
    · refine kept ?_
      simp [applyJob, addResult, writeArtifact, without]
    · exact others k later without

theorem applyBatch_failed {e : Engine σ} {j : Job} (mem : j ∈ e.batchJobs)
    (without : j.artifact = none) : j.path ∈ e.applyBatch.1.failed :=
  (applyJobs_failed e.batchJobs {} { e with jobs := [], abandoned := [] }).2 j mem without

end Engine

namespace Desk

variable {σ : Type} [Workshop σ] {R : Rules} {c d : Desk σ} {j : Job}

/-- A job that was given up stays with its batch, and fails with it. -/
theorem step_givenUp (step : Step R c d) (h : GivenUp c.abandoned c.trace j) :
    GivenUp d.abandoned d.trace j := by
  rcases h with ⟨k, hk, id, path, without⟩ | failed
  · cases step with
    | abandon => exact .inl ⟨k, List.mem_append_left _ hk, id, path, without⟩
    | @drain e =>
      obtain ⟨deeds, graph, site, -, -, -, same⟩ := e.applyBatch_desk .due true
      have mem : k ∈ e.batchJobs := Engine.batchJobs_mem.mpr (.inr hk)
      have failed : j.path ∈ e.applyBatch.1.failed := path ▸ Engine.applyBatch_failed mem without
      rw [same]
      exact .inr ⟨_, _, List.mem_cons_self, ⟨k, mem, id, path⟩, failed⟩
    | _ => exact .inl ⟨k, hk, id, path, without⟩
  · exact .inr (failed.mono (step_grows step))

theorem course_givenUp (course : Course R c d) (h : GivenUp c.abandoned c.trace j) :
    GivenUp d.abandoned d.trace j :=
  course_preserves (P := fun d => GivenUp d.abandoned d.trace j) step_givenUp course h

end Desk

namespace Engine

variable {σ : Type} [Workshop σ] {e : Engine σ} {j : Job}

theorem act_givenUp (a : Act σ) (h : GivenUp e.abandoned e.trace j) :
    GivenUp (e.act a).abandoned (e.act a).trace j := by
  have looked : GivenUp (e.look a).abandoned (e.look a).trace j := by
    have abandoned : (e.look a).abandoned = e.abandoned :=
      congrArg Core.abandoned (e.look_core a)
    rw [abandoned]
    exact h.imp_right (·.mono (e.look_grows a))
  exact Desk.course_givenUp (act_course Rules.free_lenient (e.allows_free a)) looked

theorem run_givenUp (acts : List (Act σ)) (h : GivenUp e.abandoned e.trace j) :
    GivenUp (e.run acts).abandoned (e.run acts).trace j :=
  run_preserves (P := fun e => GivenUp e.abandoned e.trace j) (fun a _ _ => act_givenUp a) h

omit [Workshop σ] in
/-- A job that was given up is not active any more. -/
theorem givenUp_left (h : GivenUp e.abandoned e.trace j) (ledger : e.core.Ledger) :
    ∀ k ∈ e.jobs, k.id ≠ j.id := by
  intro k hk same
  have held : j.id ∈ e.core.held := by
    rw [← same]
    exact List.mem_map_of_mem (List.mem_append_left _ hk)
  rcases h with ⟨x, hx, id, -, -⟩ | ⟨jobs, s, ended, ⟨x, hx, id, -⟩, -⟩
  · have nodup := ledger.held_nodup
    rw [Core.held, List.map_append, List.nodup_append] at nodup
    exact nodup.2.2 k.id (List.mem_map_of_mem hk) x.id (List.mem_map_of_mem hx) (same.trans id.symm)
  · have story : .drained jobs s ∈ e.core.story := List.mem_filter.mpr ⟨ended, rfl⟩
    have closed : j.id ∈ told Event.closed e.core.story := by
      refine List.mem_flatMap.mpr ⟨_, List.mem_reverse.mpr story, ?_⟩
      exact List.mem_map.mpr ⟨x, hx, id⟩
    exact absurd (ledger.held_later j.id closed j.id held) (Nat.lt_irrefl _)

/-- A look that ends a batch reports what was given up in it. -/
theorem closeBatch_reports (h : GivenUp e.abandoned e.trace j) (now : Nat) :
    FailedIn (e.closeBatch now).2.trace j := by
  rcases h with ⟨k, hk, id, path, without⟩ | failed
  · have mem : k ∈ e.batchJobs := batchJobs_mem.mpr (.inr hk)
    exact ⟨_, _, e.closeBatch_tells now, ⟨k, mem, id, path⟩, path ▸ applyBatch_failed mem without⟩
  · exact failed.mono (Desk.course_grows (closeBatch_course Rules.free_lenient e now trivial))

theorem beforeEnd_givenUp (h : GivenUp e.abandoned e.trace j) (now : Nat) :
    GivenUp (e.beforeEnd now).abandoned (e.beforeEnd now).trace j :=
  Desk.course_givenUp (e.beforeEnd_course now) h

/-- A look reports what was given up, unless it leaves the batch with a job that is compiled. -/
theorem pollAt_reports {kind : Job → Prop} {now : Nat} (h : e.core.Lively kind)
    (admits : Core.Admits kind now) (given : GivenUp e.abandoned e.trace j) :
    FailedIn (e.pollAt now).2.trace j ∨
      (e.pollAt now).2 = e.beforeEnd now ∧ (e.beforeEnd now).isCompiling = true := by
  have kept := beforeEnd_givenUp given now
  rw [pollAt_after]
  rcases settle_cases (beforeEnd_lively h admits) now with ⟨-, same, busy⟩ | ⟨-, same⟩
  · rw [same]
    rcases kept with ⟨k, hk, _⟩ | failed
    · refine .inr ⟨rfl, busy ?_⟩
      cases abandoned : (e.beforeEnd now).abandoned with
      | nil => simp [abandoned] at hk
      | cons => simp [isBusy, abandoned]
    · exact .inl failed
  · rw [same]
    exact .inl (closeBatch_reports kept now)

/-- A job whose time runs: when it started is known, and it has not ended. -/
structure Running (j : Job) : Prop where
  started : ∃ start, j.started = some start
  ended : j.ended = none

theorem admits_running (now : Nat) : Core.Admits Running now :=
  fun _ _ open_ => ⟨⟨now, rfl⟩, open_⟩

/-- Looks alone end a batch in which a job was given up: where each comes after the time of the job
that is being compiled, less and less is unfinished. -/
theorem looks_report (h : e.core.Lively Running) (given : GivenUp e.abandoned e.trace j) :
    ∃ looks : List Nat, FailedIn (e.run (looks.map .poll)).trace j := by
  -- The induction is on how much is unfinished.
  generalize size : e.core.unfinished = n
  induction n using Nat.strongRecOn generalizing e with
  | ind n ih =>
    subst size
    have keeps (now : Nat) := (beforeEnd_keepsBatch h (admits_running now)).unfinished
    rcases h.stand with rests | ⟨k, running, works⟩
    · rcases pollAt_reports h (admits_running 0) given with failed | ⟨-, compiling⟩
      · exact ⟨[0], failed⟩
      · -- Nothing was unfinished, so the look leaves nothing that is compiled.
        obtain ⟨k, mem, at_work⟩ := List.any_eq_true.mp compiling
        have open_ : 0 < (e.beforeEnd 0).core.unfinished := Core.unfinished_pos mem at_work
        have none_ := h.unfinished_rests rests
        have fewer := keeps 0
        omega
    · obtain ⟨⟨start, started⟩, ended⟩ := running
      have late : e.options.timeout < k.elapsed (start + e.options.timeout + 1) := by
        simp only [Job.elapsed, started, ended]
        omega
      generalize start + e.options.timeout + 1 = now at late
      rcases pollAt_reports h (admits_running now) given with failed | ⟨same, -⟩
      · exact ⟨[now], failed⟩
      · have next : (e.beforeEnd now).core.Lively Running :=
          (beforeEnd_lively h (admits_running now)).imp fun _ good => good.1
        have fewer := beforeEnd_fewer h (admits_running now) works fun _ => late
        obtain ⟨looks, failed⟩ := ih _ fewer next (beforeEnd_givenUp given now) rfl
        rw [← same] at failed
        exact ⟨now :: looks, failed⟩

/-- The jobs that a look finds over their time. A result that is there is taken in, however late. -/
def overdue (e : Engine σ) (now : Nat) : List Job :=
  if e.inFlight.all Worker.isWaiting then
    e.jobs.filter fun j => j.isCompiling && decide (e.options.timeout < j.elapsed now)
  else []

/-- What a look does about a job that is over its time. -/
structure GivesUp (e : Engine σ) (now : Nat) (j : Job) : Prop where
  /-- The job leaves the queue. -/
  left : ∀ k ∈ (e.pollAt now).2.jobs, k.id ≠ j.id
  /-- Its worker was told to stop, and is not the outstanding one. -/
  stopped : .fired j.id ∈ (e.pollAt now).2.trace ∧
    ∀ w, (e.pollAt now).2.inFlight = some w → w.job ≠ j.id
  /-- The oldest queued job is started by the same look. -/
  next : ∀ k, e.jobs.find? Job.isQueued = some k →
    k.id ∈ (e.pollAt now).1.started ∧ .started k.id ∈ (e.pollAt now).2.trace
  /-- Whatever happens, reports by its worker included, the job stays with its batch and is reported
  as failed at the end. -/
  failed : ∀ acts, GivenUp ((e.pollAt now).2.run acts).abandoned ((e.pollAt now).2.run acts).trace j
  /-- Looks alone bring the end of the batch. -/
  ends : ∀ acts : List (Act σ), (∀ a ∈ acts, a.isReport = false) → ∃ looks : List Nat,
    FailedIn (((e.pollAt now).2.run acts).run (looks.map .poll)).trace j

/-- What a look leads to. -/
structure LooksOn (e : Engine σ) (now : Nat) : Prop where
  in_time : ∀ j ∈ (e.pollAt now).2.jobs, j.isCompiling = true → j.elapsed now ≤ e.options.timeout
  timed_out : (e.pollAt now).1.timedOut = (e.overdue now).map Job.path
  given_up : ∀ j ∈ e.overdue now, e.GivesUp now j
  goes_on : (e.pollAt now).1.completed = none →
    (e.pollAt now).2.isBusy = true → (e.pollAt now).2.isCompiling = true
  covers : ∀ s, (e.pollAt now).1.completed = some s →
    s.compiled.Perm ((e.jobs ++ e.abandoned).map Job.path)

/-- An engine whose queue does not stall. -/
structure Unstalled (e : Engine σ) : Prop where
  moving : e.hasQueued = true → e.isCompiling = true
  worker : ∀ w, e.inFlight = some w → ∃ j, e.jobs.filter Job.isCompiling = [j] ∧ j.id = w.job
  looks : ∀ now, e.LooksOn now

/-- A look finds at most the one job that is being compiled over its time. -/
theorem overdue_cases (h : e.core.Lively Running) (now : Nat) :
    (e.overdue now = [] ∧ ((e.collect now).expire now).1 = []) ∨
      ∃ j, e.overdue now = [j] ∧ e.core.Works j ∧
        (e.collect now).expire now = ([j.path], (e.abandon j now).drain now) := by
  rcases collect_cases h now with
    ⟨same, waits⟩ | ⟨answered, j, before, after, o, compiling, place, same⟩
  · rw [overdue, waits, if_pos rfl, same]
    rcases find_compiling h.toStands with ⟨none_, rests⟩ | ⟨j, found, -, works⟩
    · refine .inl ⟨List.filter_eq_nil_iff.mpr fun j hj => ?_, by simp [expire, none_]⟩
      simp [rests.idle j hj]
    · obtain ⟨before, after, place⟩ := h.ordered.place_compiling works.mem works.compiling
      have only : (e.jobs.filter fun j =>
          j.isCompiling && decide (e.options.timeout < j.elapsed now)) =
            [j].filter fun j => j.isCompiling && decide (e.options.timeout < j.elapsed now) :=
        place.filter_compiling fun x found => by simp_all
      rw [only]
      by_cases late : e.options.timeout < j.elapsed now
      · exact .inr ⟨j, by simp [works.compiling, late], works, by simp [expire, found, late]⟩
      · exact .inl ⟨by simp [late], by simp [expire, found, late]⟩
  · have none_ : (e.collect now).jobs.find? Job.isCompiling = none := by
      have taken : (e.collect now).core.Place before (j.finish o now) after := by
        rw [same]
        exact place.replace rfl
      refine List.find?_eq_none.mpr fun x hx => ?_
      simp [taken.idle rfl x hx]
    exact .inl ⟨by simp [overdue, answered], by simp [expire, none_]⟩

theorem abandon_givenUp (h : e.core.Stands Running) (works : e.core.Works j) (now : Nat) :
    GivenUp (e.abandon j now).abandoned (e.abandon j now).trace j ∧
      .fired j.id ∈ (e.abandon j now).core.story := by
  obtain ⟨before, after, place⟩ := h.ordered.place_compiling works.mem works.compiling
  obtain ⟨given, story, id, path, without, fired, same⟩ :=
    abandon_place place works h.ordered now
  refine ⟨.inl ⟨given, ?_, id, path, without⟩, by rwa [same]⟩
  rw [← core_abandoned, same]
  exact List.mem_append_right _ List.mem_cons_self

theorem abandon_first (h : e.core.Stands Running) (works : e.core.Works j) (now : Nat) :
    (e.abandon j now).core.jobs.find? Job.isQueued = e.jobs.find? Job.isQueued := by
  obtain ⟨before, after, place⟩ := h.ordered.place_compiling works.mem works.compiling
  obtain ⟨given, story, -, -, -, -, same⟩ := abandon_place place works h.ordered now
  have queue : e.jobs = before ++ j :: after := place.jobs
  have passed : (j :: after).find? Job.isQueued = after.find? Job.isQueued :=
    List.find?_cons_of_neg (by simp [Job.not_queued_of_compiling works.compiling])
  rw [same, queue, place.find_queued (j :: after), passed]
  exact place.find_queued after

theorem pollAt_of_expired {now : Nat}
    (expired : (e.collect now).expire now = ([j.path], (e.abandon j now).drain now)) :
    (e.pollAt now).2 = ((((e.abandon j now).drain now).2.advance now).2.settle now).2 ∧
      (e.pollAt now).1.started =
        ((e.abandon j now).drain now).1 ++ (((e.abandon j now).drain now).2.advance now).1 := by
  simp only [pollAt, expired, and_self]

/-- A job that is over its time is given up, and makes room for the oldest that waits. -/
theorem pollAt_givesUp (h : e.core.Lively Running) (kept : e.core.Kept) {now : Nat}
    (works : e.core.Works j)
    (expired : (e.collect now).expire now = ([j.path], (e.abandon j now).drain now)) :
    e.GivesUp now j := by
  obtain ⟨looked, starts⟩ := pollAt_of_expired expired
  obtain ⟨held, fired⟩ := abandon_givenUp h.toStands works now
  obtain ⟨stands, rests⟩ := abandon_stands h.toStands works now
  have drained := drain_drains stands.ordered now
  have lively := (pollAt_lively h (admits_running now)).imp fun _ good => good.1
  have moves : Core.Moves e.core (e.pollAt now).2.core :=
    pollAt_steps (fun _ _ => trivial) (fun _ _ _ => trivial) e now
  have onward : Core.Moves ((e.abandon j now).drain now).2.core (e.pollAt now).2.core := by
    rw [looked]
    exact (advance_steps _ now).trans
      (settle_steps (fun _ _ => trivial) (fun _ _ _ => trivial) _ now)
  -- The stop of the worker and the next start are in the story when the queue was drained.
  have told {event : Event} (hs : event ∈ ((e.abandon j now).drain now).2.core.story) :
      event ∈ (e.pollAt now).2.trace :=
    (List.mem_filter.mp ((Core.steps_story onward).subset hs)).1
  have reported : GivenUp (e.pollAt now).2.abandoned (e.pollAt now).2.trace j := by
    rw [looked]
    exact Desk.course_givenUp ((drain_course Stage.maySave_steady _ now).trans <|
      (advance_course Stage.maySave_steady _ now).trans
        (settle_course Rules.free_lenient _ now)) held
  have left := givenUp_left reported (Core.steps_preserve Core.step_kept moves kept).ledger
  refine ⟨left, ⟨told (drained.story.1 fired), fun w hw mine => ?_⟩, fun k first => ?_,
    fun acts => run_givenUp acts reported, fun acts own => ?_⟩
  · obtain ⟨k, -, works', of_worker⟩ := worker_works lively.toStands hw
    exact left k works'.mem (of_worker.trans mine)
  · have started := drained.starts_first rests ((abandon_first h.toStands works now).trans first)
    rw [starts]
    exact ⟨List.mem_append_left _ started, told (drained.story.2 k.id started)⟩
  · have still := turns_preserve (P := fun d => d.core.Lively Running) (turn_lively admits_running)
      (run_turns _ acts own) lively
    exact looks_report still (run_givenUp acts reported)

theorem pollAt_looksOn (h : e.core.Lively Running) (kept : e.core.Kept) (now : Nat) :
    e.LooksOn now := by
  have before_end := beforeEnd_lively h (admits_running now)
  have after := pollAt_lively h (admits_running now)
  constructor
  · intro j hj compiling
    rcases after.stand with rests | ⟨k, good, works⟩
    · simp [rests.idle j hj] at compiling
    · obtain ⟨before, after, place⟩ := after.ordered.place_compiling works.mem works.compiling
      rw [place.only hj compiling]
      exact good.2
  · rcases overdue_cases h now with ⟨none_, expired⟩ | ⟨j, one, -, expired⟩
    · rw [none_]
      exact expired
    · rw [one]
      exact congrArg Prod.fst expired
  · intro j hj
    rcases overdue_cases h now with ⟨none_, -⟩ | ⟨k, one, works, expired⟩
    · simp [none_] at hj
    · obtain rfl : j = k := by simpa [one] using hj
      exact pollAt_givesUp h kept works expired
  · intro none_ busy
    rw [pollAt_completed] at none_
    rw [pollAt_after] at busy ⊢
    rcases settle_cases before_end now with ⟨-, same, goes_on⟩ | ⟨ended, -⟩
    · rw [same] at busy ⊢
      exact goes_on busy
    · simp [ended] at none_
  · intro s completed
    rw [pollAt_completed] at completed
    rcases settle_cases before_end now with ⟨none_, -⟩ | ⟨ended, -⟩
    · simp [none_] at completed
    · obtain rfl : (e.beforeEnd now).applyBatch.1 = s :=
        Option.some.inj (ended.symm.trans completed)
      obtain ⟨-, -, compiled, -⟩ := (e.beforeEnd now).applyBatch_core
      rw [compiled]
      exact ((Job.sortById_perm _).map Job.path).trans
        (beforeEnd_keepsBatch h (admits_running now)).outstanding

theorem lively_unstalled (h : e.core.Lively Running) (kept : e.core.Kept) : e.Unstalled := by
  refine ⟨moves_on h, fun w hw => ?_, pollAt_looksOn h kept⟩
  obtain ⟨j, -, works, mine⟩ := worker_works h.toStands hw
  obtain ⟨before, after, place⟩ := h.ordered.place_compiling works.mem works.compiling
  have only : e.jobs.filter Job.isCompiling = [j].filter Job.isCompiling :=
    place.filter_compiling fun _ found => found
  exact ⟨j, by simp [only, works.compiling], mine⟩

omit [Workshop σ] in
theorem fresh_lively (graph : FileGraph) (options : EngineOptions) (site : σ) (dawn : Nat) :
    (fresh graph options site dawn).core.Lively Running := by
  have rests : (fresh graph options site dawn).core.Rests := ⟨by simp [fresh], rfl⟩
  exact rests.lively (fresh_ordered graph options site dawn) (by simp [fresh])

theorem run_lively (graph : FileGraph) (options : EngineOptions) (site : σ) (dawn : Nat)
    {acts : List (Act σ)} (own : ∀ a ∈ acts, a.isReport = false) :
    ((fresh graph options site dawn).run acts).core.Lively Running :=
  turns_preserve (P := fun d => d.core.Lively Running) (turn_lively admits_running)
    (run_turns _ acts own) (fresh_lively graph options site dawn)

/-- In every run of a new engine in which nothing is reported past its looks, the queue does not
stall. -/
theorem run_never_stalls (graph : FileGraph) (options : EngineOptions) (site : σ) (dawn : Nat)
    {acts : List (Act σ)} (own : ∀ a ∈ acts, a.isReport = false) :
    ((fresh graph options site dawn).run acts).Unstalled := by
  have lively := run_lively graph options site dawn own
  have kept := Core.steps_preserve Core.step_kept ((fresh graph options site dawn).run_moves acts)
    (fresh_kept graph options site dawn)
  exact lively_unstalled lively kept

/-- The files of two owners, of which the compile of the first hangs and does not hear that it is
told to stop. -/
def hungOwnerSite : Sandbox :=
  { twoOwnersSite with scripts := [(.ofText "a.ink", .hang [] true .collect)] }

/-- Both owners are compiled, and the first takes more than its time. The next look gives it up and
starts the second. -/
theorem hung_owner_gives_way :
    let e := (fresh twoOwners {} hungOwnerSite 0).run [.compileFile (.ofText "shared.ink") false]
    e.Unstalled ∧ (e.overdue 30001).map Job.id = [1] ∧ (e.pollAt 30001).1.started = [2] := by
  intro e
  have late : (e.overdue 30001).map Job.id = [1] := by decide +kernel
  have next : (e.pollAt 30001).1.started = [2] := by decide +kernel
  exact ⟨run_never_stalls twoOwners {} hungOwnerSite 0 (by simp [Act.isReport]), late, next⟩

end Engine

namespace Core

variable {mayQueue mayRestrict : Core → Prop} {c d : Core} {id : Nat}

/-- A job was made, and is complete or gone. -/
structure Done (c : Core) (id : Nat) : Prop where
  made : id < c.nextId
  complete : ∀ j ∈ c.jobs, j.id = id → j.isComplete = true

theorem step_made (step : Step mayQueue mayRestrict c d) (h : id < c.nextId) : id < d.nextId := by
  cases step with
  | queue => exact Nat.lt_succ_of_lt h
  | _ => exact h

theorem steps_made (steps : Steps mayQueue mayRestrict c d) (h : id < c.nextId) : id < d.nextId :=
  steps_preserve (P := fun c => id < c.nextId) step_made steps h

/-- What is done is not taken up again. -/
theorem step_done (step : Step mayQueue mayRestrict c d) (h : c.Done id) : d.Done id := by
  refine ⟨step_made step h.made, fun k hk mine => ?_⟩
  cases step with
  | queue j may fresh =>
    rcases List.mem_append.mp hk with old | new
    · exact h.complete k old mine
    · have made := h.made
      rw [List.mem_singleton.mp new, fresh] at mine
      omega
  | start j now wall launch idle free first =>
    obtain ⟨x, hx, rfl⟩ := List.mem_map.mp hk
    by_cases same : x.id = j.id
    · -- A job that is done does not wait, so it is not the one that is started.
      rw [if_pos (beq_iff_eq.mpr same)] at mine
      have complete := h.complete j (List.mem_of_find?_eq_some first) (same.symm.trans mine)
      have waits := List.find?_some first
      simp [Job.not_queued_of_complete complete] at waits
    · rw [if_neg (by simpa using same)] at mine ⊢
      exact h.complete x hx mine
  | finish i j o now =>
    obtain ⟨x, hx, rfl⟩ := List.mem_map.mp hk
    split
    next => rfl
    next other =>
      rw [if_neg other] at mine
      exact h.complete x hx mine
  | abandon => exact h.complete k (List.mem_filter.mp hk).1 mine
  | drop => exact h.complete k (List.mem_filter.mp hk).1 mine
  | drain => cases hk
  | _ => exact h.complete k hk mine

theorem steps_done (steps : Steps mayQueue mayRestrict c d) (h : c.Done id) : d.Done id :=
  steps_preserve (P := fun c => c.Done id) step_done steps h

end Core

namespace Engine

variable {σ : Type} [Workshop σ] {e : Engine σ} {j : Job} {id steps : Nat}

section Settled

omit [Workshop σ]

theorem isSettled_iff (order : e.core.Ordered) (made : id < e.nextId) :
    e.isSettled id = true ↔ e.core.Done id := by
  unfold isSettled job?
  cases found : e.jobs.find? (·.id == id) with
  | none =>
    refine iff_of_true rfl ⟨made, fun k hk mine => ?_⟩
    simpa [mine] using List.find?_eq_none.mp found k hk
  | some j =>
    have hj : j ∈ e.core.jobs := List.mem_of_find?_eq_some found
    have mine : j.id = id := by simpa using List.find?_some found
    refine ⟨fun complete => ⟨made, fun k hk mine' => ?_⟩, fun h => h.complete j hj mine⟩
    rwa [order.job_eq hk hj (mine'.trans mine.symm)]

/-- As long as a job is not done, one is being compiled. -/
theorem works_of_unsettled (h : e.core.Lively Running) (unsettled : e.isSettled id = false) :
    ∃ j, e.core.Works j := by
  rcases h.stand with rests | ⟨j, -, works⟩
  · have none_ := List.countP_eq_zero.mp (h.unfinished_rests rests)
    unfold isSettled at unsettled
    cases found : e.job? id with
    | none => simp [found] at unsettled
    | some j =>
      have complete := none_ j (List.mem_of_find?_eq_some found)
      simp only [found, Option.all_some] at unsettled
      simp [unsettled] at complete
  · exact ⟨j, works⟩

end Settled

/-- The end of a batch is the end of all of its jobs. -/
theorem closeBatch_done (made : id < e.nextId) (now : Nat) :
    (e.closeBatch now).2.core.Done id := by
  have ended : Core.Moves e.core e.endBatch.2.core := endBatch_steps e fun _ _ _ => trivial
  have none_ : e.endBatch.2.jobs = [] := by
    obtain ⟨mode, events, same⟩ := e.endBatch_core
    rw [← core_jobs, same]
    exact e.applyBatch_idle.1
  have done : e.endBatch.2.core.Done id :=
    ⟨Core.steps_made ended made, fun j hj => by simp [none_] at hj⟩
  have onward : Core.Moves e.endBatch.2.core (e.closeBatch now).2.core :=
    e.closeBatch_onward now fun _ _ => trivial
  exact Core.steps_done onward done

/-- A look leaves a batch as it was before its end, or is the end of all of its jobs. -/
theorem pollAt_done (h : e.core.Lively Running) (made : id < e.nextId) (now : Nat) :
    (e.pollAt now).2 = e.beforeEnd now ∨ (e.pollAt now).2.core.Done id := by
  rw [pollAt_after]
  rcases settle_cases (beforeEnd_lively h (admits_running now)) now with ⟨-, same, -⟩ | ⟨-, same⟩
  · exact .inl same
  · have before : Core.Moves e.core (e.beforeEnd now).core :=
      (collect_steps e now).trans <| (expire_steps _ now).trans (advance_steps _ now)
    rw [same]
    exact .inr (closeBatch_done (Core.steps_made before made) now)

/-- The next look by the engine's own clock finishes what is being compiled. -/
def Due (e : Engine σ) : Prop :=
  e.inFlight.all Worker.isWaiting = true →
    ∀ j, e.core.Works j → e.options.timeout < j.elapsed e.clock

omit [Workshop σ] in
theorem passTime_due (h : e.core.Lively Running) : e.passTime.Due := by
  unfold passTime
  split
  next at_end =>
    intro waiting
    obtain ⟨w, hw, ended⟩ := (Option.any_eq_true _ _).mp at_end
    simp only [hw, Option.all_some] at waiting
    simp [waiting] at ended
  next =>
    rcases find_compiling h.toStands with ⟨none_, rests⟩ | ⟨k, found, running, works⟩
    · rw [none_]
      exact fun _ j works => absurd rests works.busy
    · obtain ⟨⟨start, started⟩, ended⟩ := running
      obtain ⟨before, after, place⟩ := h.ordered.place_compiling works.mem works.compiling
      rw [found]
      intro _ j works'
      obtain rfl : j = k := place.only works'.mem works'.compiling
      simp only [Job.elapsed, started, ended, Option.getD_some]
      omega

theorem breathe_aside (e : Engine σ) : e.breathe.options = e.options ∧ e.breathe.clock = e.clock ∧
    (e.breathe.inFlight.all Worker.isWaiting = true → e.inFlight.all Worker.isWaiting = true) := by
  unfold breathe
  split
  next r lines deaf next out => exact ⟨rfl, rfl, fun _ => by simp [out, Worker.isWaiting]⟩
  next => exact ⟨rfl, rfl, id⟩

theorem breathe_due (due : e.Due) : e.breathe.Due := by
  obtain ⟨options, clock, waiting⟩ := e.breathe_aside
  intro waits j works
  rw [breathe_core] at works
  rw [options, clock]
  exact due (waiting waits) j works

theorem breatheAndPoll_lively (h : e.core.Lively Running) :
    e.breatheAndPoll.core.Lively Running :=
  turns_preserve (P := fun d => d.core.Lively Running) (turn_lively admits_running)
    e.breatheAndPoll_turns h

theorem breatheAndPoll_moves (e : Engine σ) : Core.Moves e.core e.breatheAndPoll.core :=
  breatheAndPoll_steps (fun _ _ => trivial) (fun _ _ _ => trivial) e

theorem breatheAndPoll_done (h : e.core.Lively Running) (made : id < e.nextId) :
    e.breatheAndPoll = e.breathe.beforeEnd e.clock ∨ e.breatheAndPoll.core.Done id := by
  obtain ⟨-, clock, -⟩ := e.breathe_aside
  rw [← e.breathe_core] at h
  rw [← core_nextId, ← e.breathe_core] at made
  rw [← clock]
  exact pollAt_done h made _

/-- What a wait goes on with after one look at a job that is not done. -/
def nextRound (e : Engine σ) (id : Nat) : Engine σ :=
  if e.breatheAndPoll.isSettled id then e.breatheAndPoll else e.breatheAndPoll.passTime

theorem waitFor_settled (settled : e.isSettled id = true) (steps : Nat) :
    waitFor id steps e = e.breatheAndPoll := by
  cases steps with
  | zero => rfl
  | succ steps => rw [waitFor, if_pos settled]

theorem waitFor_next (unsettled : e.isSettled id = false) (steps : Nat) :
    waitFor id (steps + 1) e = waitFor id steps (e.nextRound id) := by
  rw [waitFor, if_neg (by simp [unsettled])]
  rfl

/-- A wait comes to its end within its steps: the job is done, and more steps change nothing. -/
structure WaitEnds (id steps : Nat) (e : Engine σ) : Prop where
  settled : (waitFor id steps e).isSettled id = true
  enough : ∀ more, waitFor id (steps + more) e = waitFor id steps e

theorem waitEnds_of_settled (h : e.core.Lively Running) (made : id < e.nextId)
    (settled : e.isSettled id = true) (steps : Nat) : WaitEnds id steps e := by
  refine ⟨?_, fun more => by rw [waitFor_settled settled, waitFor_settled settled]⟩
  have done := (isSettled_iff h.ordered made).mp settled
  have still := Core.steps_done e.breatheAndPoll_moves done
  rw [waitFor_settled settled]
  exact (isSettled_iff (breatheAndPoll_lively h).ordered still.made).mpr still

/-- One round of a wait. If the job is not done after it, the next look finishes a job. -/
theorem waitEnds_of_round (h : e.core.Lively Running) (made : id < e.nextId)
    (rest : ∀ d : Engine σ, d.core.Lively Running → id < d.nextId → d.Due →
      d.core.unfinished = (e.breathe.beforeEnd e.clock).core.unfinished → WaitEnds id steps d) :
    WaitEnds id (steps + 1) e := by
  cases settled : e.isSettled id with
  | true => exact waitEnds_of_settled h made settled _
  | false =>
    have lively := breatheAndPoll_lively h
    have made' : id < e.breatheAndPoll.nextId := Core.steps_made e.breatheAndPoll_moves made
    have next : WaitEnds id steps (e.nextRound id) := by
      unfold nextRound
      split
      next settled' => exact waitEnds_of_settled lively made' settled' _
      next unsettled =>
        have before := (breatheAndPoll_done h made).resolve_right fun done =>
          unsettled ((isSettled_iff lively.ordered made').mpr done)
        refine rest _ ?_ ?_ (passTime_due lively) ?_
        · rwa [passTime_core]
        · rwa [← core_nextId, passTime_core]
        · rw [passTime_core, before]
    refine ⟨?_, fun more => ?_⟩
    · rw [waitFor_next settled]
      exact next.settled
    · rw [Nat.add_right_comm, waitFor_next settled, waitFor_next settled]
      exact next.enough more

/-- Where every look finishes a job, there are as many rounds as jobs to finish. -/
theorem waitEnds_of_due (h : e.core.Lively Running) (made : id < e.nextId) (due : e.Due)
    (enough : e.core.unfinished ≤ steps) : WaitEnds id steps e := by
  induction steps generalizing e with
  | zero =>
    refine waitEnds_of_settled h made ?_ 0
    by_contra unsettled
    obtain ⟨j, works⟩ := works_of_unsettled h (by simpa using unsettled)
    have open_ := Core.unfinished_pos works.mem works.compiling
    omega
  | succ steps ih =>
    cases settled : e.isSettled id with
    | true => exact waitEnds_of_settled h made settled _
    | false =>
      obtain ⟨j, works⟩ := works_of_unsettled h settled
      have breathing : e.breathe.core.Lively Running := by rwa [breathe_core]
      have works' : e.breathe.core.Works j := by rwa [breathe_core]
      have fewer := beforeEnd_fewer breathing (admits_running e.clock) works' fun waits =>
        e.breathe_aside.2.1 ▸ breathe_due due waits j works'
      rw [breathe_core] at fewer
      refine waitEnds_of_round h made fun d h' made' due' same => ih h' made' due' ?_
      omega

/-- A wait ends within one step more than there are jobs to finish. -/
theorem waitFor_ends (h : e.core.Lively Running) (made : id < e.nextId)
    (enough : e.core.unfinished < steps) : WaitEnds id steps e := by
  cases steps with
  | zero => exact absurd enough (Nat.not_lt_zero _)
  | succ steps =>
    have breathing : e.breathe.core.Lively Running := by rwa [breathe_core]
    have few := (beforeEnd_keepsBatch breathing (admits_running e.clock)).unfinished
    rw [breathe_core] at few
    refine waitEnds_of_round h made fun d h' made' due same => waitEnds_of_due h' made' due ?_
    omega

theorem submit_made {d : Engine σ} {master : Path} {immediate : Bool} {now : Nat}
    (accepted : e.submit master immediate now = (.ok id, d)) : id < d.nextId := by
  unfold submit at accepted
  split at accepted
  next => cases accepted
  next =>
    cases accepted
    have added : e.nextId < (e.addJob master immediate).core.nextId := by
      rw [addJob_core]
      exact Nat.lt_succ_self _
    have drained : Core.Moves (e.addJob master immediate).core
        ((e.addJob master immediate).drain now).2.core := drain_steps _ now
    exact Core.steps_made drained added

/-- The steps that an immediate compile allows for are enough. -/
theorem submit_waitEnds {d : Engine σ} {master : Path} {now : Nat} (h : e.core.Lively Running)
    (accepted : e.submit master true now = (.ok id, d)) :
    WaitEnds id (2 * (d.jobs.length + 1)) d := by
  have lively := submit_lively h (admits_running now) master true
  rw [accepted] at lively
  have few : d.core.unfinished ≤ d.jobs.length := List.countP_le_length
  exact waitFor_ends lively (submit_made accepted) (by omega)

/-- In every run of a new engine in which nothing is reported past its looks, an immediate compile
is done when the request returns. -/
theorem run_immediate_done (graph : FileGraph) (options : EngineOptions) (site : σ) (dawn : Nat)
    {acts : List (Act σ)} (own : ∀ a ∈ acts, a.isReport = false) (master : Path) (now : Nat)
    (accepted : (((fresh graph options site dawn).run acts).enqueueAt master true now).1 = .ok id) :
    (((fresh graph options site dawn).run acts).enqueueAt master true now).2.isSettled id := by
  have lively := run_lively graph options site dawn own
  unfold enqueueAt at accepted ⊢
  split at accepted
  next => cases accepted
  next submitted =>
    cases accepted
    exact (submit_waitEnds lively submitted).settled

end Engine

end StoryBuild
