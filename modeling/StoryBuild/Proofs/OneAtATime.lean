import StoryBuild.Proofs.QueueOrder

namespace StoryBuild

/-- Whether the compile of a job ended in a stretch of a trace. -/
def IsOver (id : Nat) (stretch : List Event) : Prop :=
  .collected id ∈ stretch ∨ .fired id ∈ stretch

/-- Every compile that began ended since, but for one that may be out. The latest event is first. -/
def AllOver (out : Option Nat) (trace : List Event) : Prop :=
  ∀ since id before, trace = since ++ .begun id :: before → IsOver id since ∨ out = some id

/-- Whenever a compile began, every compile before it was closed. -/
def OneByOne (trace : List Event) : Prop :=
  ∀ id earlier, .begun id :: earlier <:+ trace → AllOver none earlier

/-- An event that begins no compile. -/
def Event.BeginsNone (event : Event) : Prop :=
  ∀ id, event ≠ .begun id

theorem IsOver.mono {id : Nat} {xs ys : List Event} (h : IsOver id xs) (sub : xs ⊆ ys) :
    IsOver id ys :=
  h.imp (fun m => sub m) fun m => sub m

namespace AllOver

variable {out : Option Nat} {trace : List Event}

theorem begun (h : AllOver none trace) (id : Nat) : AllOver (some id) (.begun id :: trace) := by
  intro since k before eq
  rcases List.cons_eq_append_iff.mp eq with ⟨rfl, same⟩ | ⟨rest, rfl, left⟩
  · cases same
    exact .inr rfl
  · have closed := (h rest k before left).resolve_right (by simp)
    exact .inl (closed.mono (List.subset_cons_self _ _))

theorem other {event : Event} (h : AllOver out trace) (silent : event.BeginsNone) :
    AllOver out (event :: trace) := by
  intro since k before eq
  rcases List.cons_eq_append_iff.mp eq with ⟨rfl, same⟩ | ⟨rest, rfl, left⟩
  · cases same
    exact absurd rfl (silent k)
  · exact (h rest k before left).imp_left fun closed => closed.mono (List.subset_cons_self _ _)

theorem others {events : List Event} (h : AllOver out trace)
    (silent : ∀ event ∈ events, event.BeginsNone) : AllOver out (events ++ trace) := by
  induction events with
  | nil => exact h
  | cons event rest ih =>
    exact (ih fun x hx => silent x (List.mem_cons_of_mem _ hx)).other (silent event (by simp))

/-- The compile that is out ends. -/
theorem finish {id : Nat} {event : Event} (h : AllOver (some id) trace)
    (ends : event = .collected id ∨ event = .fired id) : AllOver none (event :: trace) := by
  intro since k before eq
  rcases List.cons_eq_append_iff.mp eq with ⟨rfl, same⟩ | ⟨rest, rfl, left⟩
  · cases same
    simp at ends
  · refine .inl ?_
    rcases h rest k before left with closed | same
    · exact closed.mono (List.subset_cons_self _ _)
    · cases same
      rcases ends with rfl | rfl
      · exact .inl (by simp)
      · exact .inr (by simp)

end AllOver

namespace OneByOne

variable {trace : List Event}

theorem begun (h : OneByOne trace) (closed : AllOver none trace) (id : Nat) :
    OneByOne (.begun id :: trace) := by
  intro k earlier within
  rcases List.suffix_cons_iff.mp within with same | within
  · cases same
    exact closed
  · exact h k earlier within

theorem other {event : Event} (h : OneByOne trace) (silent : event.BeginsNone) :
    OneByOne (event :: trace) := by
  intro k earlier within
  rcases List.suffix_cons_iff.mp within with same | within
  · cases same
    exact absurd rfl (silent k)
  · exact h k earlier within

theorem others {events : List Event} (h : OneByOne trace)
    (silent : ∀ event ∈ events, event.BeginsNone) : OneByOne (events ++ trace) := by
  induction events with
  | nil => exact h
  | cons event rest ih =>
    exact (ih fun x hx => silent x (List.mem_cons_of_mem _ hx)).other (silent event (by simp))

end OneByOne

namespace Core

variable {mayQueue mayRestrict : Core → Prop}

/-- The compiles of a story went one by one, and at most that of the worker is out. -/
structure Exclusive (c : Core) : Prop where
  closed : AllOver c.worker c.story
  order : OneByOne c.story

theorem Exclusive.others {c d : Core} {events : List Event} (h : c.Exclusive)
    (worker : d.worker = c.worker) (story : d.story = events ++ c.story)
    (silent : ∀ event ∈ events, event.BeginsNone) : d.Exclusive := by
  constructor
  · rw [worker, story]
    exact h.closed.others silent
  · rw [story]
    exact h.order.others silent

theorem Exclusive.finish {c d : Core} {id : Nat} {event : Event} (h : c.Exclusive)
    (out : c.worker = some id) (worker : d.worker = none) (story : d.story = event :: c.story)
    (ends : event = .collected id ∨ event = .fired id) : d.Exclusive := by
  constructor
  · rw [worker, story]
    exact (out ▸ h.closed).finish ends
  · rw [story]
    refine h.order.other fun k begins => ?_
    rcases ends with rfl | rfl <;> cases begins

/-- A launch in a story without an outstanding compile. -/
theorem Exclusive.launch {c d : Core} {id : Nat} (launch : Launch) (h : c.Exclusive)
    (free : c.worker = none) (worker : d.worker = launch.worker id)
    (story : d.story = launch.events id ++ c.story) : d.Exclusive := by
  have left : ∀ k, Event.started id ≠ .begun k := by simp
  have closed : AllOver none (.started id :: c.story) := (free ▸ h.closed).other left
  have order : OneByOne (.started id :: c.story) := h.order.other left
  have begun_order := order.begun closed id
  have called : ∀ master k, Event.called id master ≠ .begun k := by simp
  constructor
  · rw [worker, story]
    cases launch with
    | failed => exact closed
    | here master => exact ((closed.begun id).other (called master)).finish (.inl rfl)
    | lost => exact closed.begun id
    | away master => exact (closed.begun id).other (called master)
  · rw [story]
    cases launch with
    | failed => exact order
    | here master => exact (begun_order.other (called master)).other (by simp [Event.BeginsNone])
    | lost => exact begun_order
    | away master => exact begun_order.other (called master)

theorem step_exclusive {c d : Core} (step : Step mayQueue mayRestrict c d) (h : c.Exclusive) :
    d.Exclusive := by
  cases step with
  | queue j =>
    have silent : ∀ event ∈ [Event.queued j.id j.path], event.BeginsNone := by
      simp [Event.BeginsNone]
    exact h.others rfl rfl silent
  | start j now wall launch idle free first => exact h.launch launch free rfl rfl
  | finish => exact ⟨h.closed, h.order⟩
  | collect id out => exact h.finish out rfl rfl (.inl rfl)
  | fire id out => exact h.finish out rfl rfl (.inr rfl)
  | abandon => exact ⟨h.closed, h.order⟩
  | drain s produced =>
    have silent : ∀ event ∈ .drained c.batch s :: produced.map Event.produced,
        event.BeginsNone := by
      simp [Event.BeginsNone]
    exact h.others rfl rfl silent
  | drop =>
    refine h.others rfl rfl fun event hevent id begins => ?_
    simp [begins] at hevent
  | restrict =>
    have silent : ∀ event ∈ [Event.mode .restricted], event.BeginsNone := by
      simp [Event.BeginsNone]
    exact h.others rfl rfl silent
  | edit =>
    have silent : ∀ event ∈ [Event.mode .editing], event.BeginsNone := by
      simp [Event.BeginsNone]
    exact h.others rfl rfl silent

end Core

namespace Engine

variable {σ : Type}

theorem fresh_exclusive (graph : FileGraph) (options : EngineOptions) (site : σ) (dawn : Nat) :
    (fresh graph options site dawn).core.Exclusive := by
  constructor
  · intro since id before eq
    simp at eq
  · intro id earlier within
    simp at within

/-- What is left out of a story ends no compile and begins none. -/
theorem oneByOne_trace {e : Engine σ} (h : OneByOne e.story) : OneByOne e.trace := by
  intro id earlier within since k before eq
  have begun_story : .begun id :: earlier.filter Event.isStory <:+ e.story := by
    have filtered := within.filter Event.isStory
    rwa [List.filter_cons_of_pos rfl] at filtered
  have split_ : earlier.filter Event.isStory =
      since.filter Event.isStory ++ .begun k :: before.filter Event.isStory := by
    rw [eq, List.filter_append, List.filter_cons_of_pos rfl]
  have closed := h id _ begun_story (since.filter Event.isStory) k _ split_
  exact closed.imp_left fun done => done.mono (List.filter_sublist.subset)

/-- In every run of a new engine, at most one job is being compiled, and compiles go one by one. -/
theorem run_one_at_a_time [Workshop σ] (graph : FileGraph) (options : EngineOptions) (site : σ)
    (dawn : Nat) (acts : List (Act σ)) :
    ((fresh graph options site dawn).run acts).jobs.countP Job.isCompiling ≤ 1 ∧
      OneByOne ((fresh graph options site dawn).run acts).trace := by
  have steps := (fresh graph options site dawn).run_moves acts
  have ordered := Core.steps_preserve Core.step_ordered steps
    (fresh_ordered graph options site dawn)
  have exclusive := Core.steps_preserve Core.step_exclusive steps
    (fresh_exclusive graph options site dawn)
  exact ⟨ordered.compiling_le_one, oneByOne_trace exclusive.order⟩

end Engine

end StoryBuild
