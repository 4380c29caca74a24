import StoryBuild.Proofs.Acting
import StoryBuild.Proofs.RestrictedMode

namespace StoryBuild

namespace Rules

/-- A cancellation leaves a job behind if masters wait while sources are edited. -/
def sparing : Rules :=
  { free with
    drop := fun c q => c.mode = .editing →
      q.order = [] ∨ c.abandoned ≠ [] ∨ ∃ j ∈ c.jobs, j.isComplete = true }

theorem sparing_lenient : sparing.Lenient :=
  ⟨fun _ _ => trivial, fun _ _ _ => trivial, fun _ _ => trivial⟩

end Rules

namespace Desk

variable {σ : Type}

/-- Something waits only while a batch is outstanding. -/
def Occupied (d : Desk σ) : Prop :=
  d.jobs = [] → d.abandoned = [] → d.pending.order = []

/-- Between calls that holds while sources are edited; within a call it can fail only where the
waiting masters are due. -/
def Attended (d : Desk σ) : Prop :=
  d.stage ≠ .due → (d.stage = .steady → d.mode = .editing) → d.Occupied

theorem Attended.congr {c d : Desk σ} (h : c.Attended) (jobs : c.jobs = [] ↔ d.jobs = [])
    (abandoned : d.abandoned = c.abandoned) (pending : d.pending = c.pending)
    (mode : d.mode = c.mode) (stage : d.stage = c.stage) : d.Attended := by
  intro not_due editing no_jobs no_abandoned
  rw [stage] at not_due editing
  rw [mode] at editing
  rw [abandoned] at no_abandoned
  rw [pending]
  exact h not_due editing (jobs.mpr no_jobs) no_abandoned

variable [Workshop σ]

theorem step_attended {c d : Desk σ} (step : Step Rules.sparing c d) (h : c.Attended) :
    d.Attended := by
  cases step with
  | queue =>
    intro _ _ no_jobs
    exact absurd no_jobs (by simp)
  | start | finish => exact h.congr (by simp) rfl rfl rfl rfl
  | abandon =>
    intro _ _ _ no_abandoned
    exact absurd no_abandoned (by simp)
  | drain =>
    -- The end of a batch makes the waiting masters due, and nothing is asked of a desk then.
    intro not_due
    exact absurd rfl not_due
  | drop may stage =>
    intro not_due editing no_jobs no_abandoned
    rcases may (editing stage) with none_waits | left | ⟨j, hj, complete⟩
    · exact none_waits
    · exact absurd no_abandoned left
    · have kept : j ∈ c.jobs.filter Job.isComplete := List.mem_filter.mpr ⟨hj, complete⟩
      rw [show c.jobs.filter Job.isComplete = [] from no_jobs] at kept
      cases kept
  | restrict may =>
    intro not_due editing
    refine h not_due fun stage => ?_
    cases editing stage
  | edit =>
    intro not_due
    exact absurd rfl not_due
  | park p stage must =>
    intro _ editing no_jobs
    -- While sources are edited a master is parked only behind a job of its own.
    rcases must with restricted | ⟨k, hk, _⟩
    · rw [show c.mode = .editing from editing stage] at restricted
      cases restricted
    · rw [show c.jobs = [] from no_jobs] at hk
      cases hk
  | take =>
    intro _ _ _ _
    rfl
  | putBack stage active =>
    intro _ _ no_jobs
    obtain ⟨k, hk, _⟩ := active
    rw [show c.jobs = [] from no_jobs] at hk
    cases hk
  | turn stage | forget stage | done stage =>
    intro _ _
    exact h (by rw [stage]; simp) (by rw [stage]; simp)
  | rest stage idle =>
    intro _ editing _ _
    rcases idle with restricted | none_waits
    · rw [show c.mode = .editing from editing rfl] at restricted
      cases restricted
    · exact none_waits
  | _ => exact h

end Desk

namespace Engine

variable {σ : Type}

/-- Masters wait, but sources are edited and no batch is outstanding. -/
def Stranded (e : Engine σ) : Prop :=
  e.mode = .editing ∧ e.isBusy = false ∧ e.pending.isEmpty = false

instance (e : Engine σ) : Decidable e.Stranded :=
  inferInstanceAs (Decidable (_ ∧ _ ∧ _))

/-- While sources are edited, a cancellation meets no waiting master, or leaves a finished or an
abandoned job of the batch behind. -/
def CancelsSafely (e : Engine σ) : Act σ → Prop
  | .cancelAll => e.mode = .editing →
    e.pending.isEmpty = true ∨ e.abandoned ≠ [] ∨ ∃ j ∈ e.jobs, j.isComplete = true
  | _ => True

theorem attended_iff (e : Engine σ) : (e.desk .steady true).Attended ↔ ¬ e.Stranded := by
  have busy : e.isBusy = false ↔ e.jobs = [] ∧ e.abandoned = [] := by simp [isBusy]
  have waits : e.pending.isEmpty = false ↔ e.pending.order ≠ [] := by simp [Pending.isEmpty]
  rw [Stranded, busy, waits]
  constructor
  · rintro h ⟨editing, ⟨no_jobs, no_abandoned⟩, some_wait⟩
    have not_due : (e.desk .steady true).stage ≠ .due := fun due => by cases due
    exact some_wait (h not_due (fun _ => editing) no_jobs no_abandoned)
  · intro h _ editing no_jobs no_abandoned
    by_cases none_waits : e.pending.order = []
    · exact none_waits
    · exact absurd ⟨editing rfl, ⟨no_jobs, no_abandoned⟩, none_waits⟩ h

variable [Workshop σ]

theorem cancelAll_pending (e : Engine σ) : e.cancelAll.2.pending = e.pending := by
  have persisted (d : Engine σ) : d.persist.pending = d.pending := by
    unfold persist
    split
    next => rfl
    next => dsimp only; split <;> rfl
  have released (d : Engine σ) : d.releaseHost.pending = d.pending := by
    unfold releaseHost
    split <;> rfl
  unfold cancelAll
  dsimp only
  rw [persisted]
  split
  next => exact e.cancelWorker_keeps.1
  next => exact (released _).trans e.cancelWorker_keeps.1

/-- What waits keeps waiting when a cancellation drops all that is left of a batch. -/
theorem cancelAll_stranded {e : Engine σ} (not_safe : ¬ e.CancelsSafely .cancelAll) :
    e.cancelAll.2.Stranded := by
  simp only [CancelsSafely, Classical.not_imp, not_or, not_exists, not_and,
    Classical.not_not] at not_safe
  obtain ⟨editing, some_wait, no_abandoned, none_complete⟩ := not_safe
  have core := e.cancelAll_core
  obtain ⟨pending, abandoned, mode⟩ := e.cancelWorker_keeps
  have left : e.cancelAll.2.jobs = [] := by
    rw [← core_jobs, core]
    exact List.filter_eq_nil_iff.mpr none_complete
  refine ⟨?_, ?_, ?_⟩
  · rw [← core_mode, core]
    exact mode.trans editing
  · have none_abandoned : e.cancelAll.2.abandoned = [] := by
      rw [← core_abandoned, core]
      exact abandoned.trans no_abandoned
    simp [isBusy, left, none_abandoned]
  · rw [cancelAll_pending]
    simpa using some_wait

/-- A call strands masters only if it is a cancellation that drops all that is left of a batch. -/
theorem act_strands_none_iff {e : Engine σ} (h : ¬ e.Stranded) (a : Act σ) :
    ¬ (e.act a).Stranded ↔ e.CancelsSafely a := by
  constructor
  · intro safe
    cases a with
    | cancelAll =>
      exact Classical.byContradiction fun not_safe => safe (cancelAll_stranded not_safe)
    | _ => trivial
  · intro safe
    have allowed : e.Allows Rules.sparing a := by
      refine allows_of (fun _ _ => trivial) ?_
      rintro rfl editing
      obtain ⟨-, abandoned, mode⟩ := e.cancelWorker_keeps
      have spared := safe (mode.symm.trans editing)
      rw [Pending.isEmpty, List.isEmpty_iff] at spared
      rwa [core_abandoned, abandoned, core_jobs, cancelWorker_jobs]
    obtain ⟨graph, site, events, -, looked⟩ := e.look_desk .steady a
    have attended : ((e.look a).desk .steady true).Attended := by
      rw [looked]
      exact (attended_iff e).mpr h
    exact (attended_iff _).mp <|
      Desk.course_preserves Desk.step_attended (act_course Rules.sparing_lenient allowed) attended

theorem strands_none_iff {e : Engine σ} (h : ¬ e.Stranded) (acts : List (Act σ)) :
    (∀ front, front <+: acts → ¬ (e.run front).Stranded) ↔ Throughout CancelsSafely acts e := by
  induction acts generalizing e with
  | nil =>
    refine ⟨fun _ => trivial, fun _ front within => ?_⟩
    rw [List.prefix_nil.mp within]
    exact h
  | cons a rest ih =>
    constructor
    · intro never
      have first : ¬ (e.act a).Stranded := never [a] (by simp)
      refine ⟨(act_strands_none_iff h a).mp first, (ih first).mp fun front within => ?_⟩
      exact never (a :: front) ((List.prefix_cons_inj a).mpr within)
    · rintro ⟨safe, safe_rest⟩ front within
      have first := (act_strands_none_iff h a).mpr safe
      cases front with
      | nil => exact h
      | cons b front =>
        obtain ⟨rfl, inner⟩ := List.cons_prefix_cons.mp within
        exact (ih first).mpr safe_rest front inner

/-- In a run of a new engine waiting masters are never stranded exactly if no cancellation takes
the last jobs of a batch away while masters wait and sources are edited. -/
theorem run_strands_none_iff (graph : FileGraph) (options : EngineOptions) (site : σ) (dawn : Nat)
    (acts : List (Act σ)) :
    (∀ front, front <+: acts → ¬ ((fresh graph options site dawn).run front).Stranded) ↔
      Throughout CancelsSafely acts (fresh graph options site dawn) :=
  strands_none_iff (by simp [Stranded, fresh, Pending.isEmpty]) acts

/-- A master is compiled, changes meanwhile, and the compile is cancelled. Later looks do not take
the change up. -/
def cancelledRun : List (Act Sandbox) :=
  [.compileFile (.ofText "x.ink") false, .sourceChanged (.ofText "x.ink"), .cancelAll, .poll 0,
    .poll 1000]

theorem cancelled_run_strands :
    ((fresh twoOwners {} twoOwnersSite 0).run cancelledRun).Stranded ∧
      ¬ Throughout CancelsSafely cancelledRun (fresh twoOwners {} twoOwnersSite 0) := by
  have stranded : ((fresh twoOwners {} twoOwnersSite 0).run cancelledRun).Stranded := by
    decide +kernel
  refine ⟨stranded, fun safe => ?_⟩
  exact (run_strands_none_iff twoOwners {} twoOwnersSite 0 cancelledRun).mpr safe cancelledRun
    (List.prefix_refl _) stranded

end Engine

end StoryBuild
