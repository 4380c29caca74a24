import StoryBuild.Proofs.JobLedger

namespace StoryBuild

/-- The job that an event started. -/
def Event.startedJob? : Event → Option Nat
  | .started id => some id
  | _ => none

/-- The last job that was started. -/
def lastStarted (trace : List Event) : Option Nat :=
  trace.findSome? Event.startedJob?

theorem lastStarted_append {events : List Event} (trace : List Event)
    (h : ∀ event ∈ events, event.startedJob? = none) :
    lastStarted (events ++ trace) = lastStarted trace := by
  have nothing : events.findSome? Event.startedJob? = none := List.findSome?_eq_none_iff.mpr h
  simp [lastStarted, nothing]

theorem lastStarted_story (trace : List Event) :
    lastStarted (trace.filter Event.isStory) = lastStarted trace := by
  induction trace with
  | nil => rfl
  | cons event rest ih =>
    cases h : event.isStory with
    | true =>
      rw [List.filter_cons_of_pos h, lastStarted, lastStarted, List.findSome?_cons,
        List.findSome?_cons]
      cases event.startedJob? with
      | some id => rfl
      | none => exact ih
    | false =>
      have silent : event.startedJob? = none := by
        cases event <;> simp_all [Event.isStory, Event.startedJob?]
      have one : ∀ x ∈ [event], x.startedJob? = none := by simpa using silent
      rw [List.filter_cons_of_neg (by simp [h]), ih]
      exact (lastStarted_append rest one).symm

theorem Launch.lastStarted_events (id : Nat) (launch : Launch) (trace : List Event) :
    lastStarted (launch.events id ++ trace) = some id := by
  cases launch <;> rfl

theorem Launch.started_mem {id k : Nat} {launch : Launch} (h : .started k ∈ launch.events id) :
    k = id := by
  cases launch <;> simpa [Launch.events] using h

namespace Core

variable {mayQueue mayRestrict : Core → Prop}

structure Traced (c : Core) : Prop where
  queued : ∀ j ∈ c.jobs, .queued j.id j.path ∈ c.story
  unstarted : ∀ j ∈ c.jobs, j.isQueued = true → .started j.id ∉ c.story
  below : ∀ id, .started id ∈ c.story → id < c.nextId
  compiling : ∀ j ∈ c.jobs, j.isCompiling = true → lastStarted c.story = some j.id

/-- A step that starts nothing, and after which every job is as it was or over. -/
theorem Traced.keep {c d : Core} (h : c.Traced) (events : List Event)
    (story : d.story = events ++ c.story) (silent : ∀ event ∈ events, event.startedJob? = none)
    (next : d.nextId = c.nextId)
    (kept : ∀ j ∈ d.jobs, ∃ k ∈ c.jobs, k.id = j.id ∧ k.path = j.path ∧
      (j.isComplete = true ∨ j.state = k.state)) : d.Traced := by
  have old {id : Nat} (hs : .started id ∈ d.story) : .started id ∈ c.story := by
    rw [story] at hs
    refine (List.mem_append.mp hs).resolve_left fun new => ?_
    cases silent _ new
  have last : lastStarted d.story = lastStarted c.story := by
    rw [story, lastStarted_append c.story silent]
  constructor
  · intro j hj
    obtain ⟨k, hk, id, path, _⟩ := kept j hj
    rw [story, ← id, ← path]
    exact List.mem_append_right _ (h.queued k hk)
  · intro j hj waits hs
    obtain ⟨k, hk, id, _, ended | state⟩ := kept j hj
    · simp_all [Job.isQueued, Job.isComplete]
    · have waits' : k.isQueued = true := by rwa [Job.isQueued, ← state]
      exact h.unstarted k hk waits' (id ▸ old hs)
  · intro id hs
    rw [next]
    exact h.below id (old hs)
  · intro j hj compiles
    obtain ⟨k, hk, id, _, ended | state⟩ := kept j hj
    · simp_all [Job.isCompiling, Job.isComplete]
    · have compiles' : k.isCompiling = true := by rwa [Job.isCompiling, ← state]
      rw [last, ← id]
      exact h.compiling k hk compiles'

/-- A step that starts nothing and takes at most some jobs away. -/
theorem Traced.keep_sub {c d : Core} (h : c.Traced) (events : List Event)
    (story : d.story = events ++ c.story) (silent : ∀ event ∈ events, event.startedJob? = none)
    (next : d.nextId = c.nextId) (sub : ∀ j ∈ d.jobs, j ∈ c.jobs) : d.Traced :=
  h.keep events story silent next fun j hj => ⟨j, sub j hj, rfl, rfl, .inr rfl⟩

theorem step_traced {c d : Core} (step : Step mayQueue mayRestrict c d) (order : c.Ordered)
    (h : c.Traced) : d.Traced := by
  cases step with
  | queue j may fresh state free =>
    have last : lastStarted (.queued j.id j.path :: c.story) = lastStarted c.story := rfl
    constructor
    · intro k hk
      rcases List.mem_append.mp hk with hk | hk
      · exact List.mem_cons_of_mem _ (h.queued k hk)
      · rw [List.mem_singleton.mp hk]
        exact List.mem_cons_self
    · intro k hk waits hs
      have before : .started k.id ∈ c.story := (List.mem_cons.mp hs).resolve_left (by simp)
      rcases List.mem_append.mp hk with hk | hk
      · exact h.unstarted k hk waits before
      · rw [List.mem_singleton.mp hk, fresh] at before
        exact absurd (h.below _ before) (Nat.lt_irrefl _)
    · intro id hs
      exact Nat.lt_succ_of_lt (h.below id ((List.mem_cons.mp hs).resolve_left (by simp)))
    · intro k hk compiles
      rw [last]
      rcases List.mem_append.mp hk with hk | hk
      · exact h.compiling k hk compiles
      · rw [List.mem_singleton.mp hk] at compiles
        exact absurd state (by simp [Job.not_queued_of_compiling compiles])
  | start j now wall launch idle free first =>
    have mine := List.mem_of_find?_eq_some first
    have resting : ∀ k ∈ c.jobs, k.isCompiling = false := by simpa using idle
    constructor
    · intro k hk
      obtain ⟨x, hx, rfl⟩ := List.mem_map.mp hk
      have same : (if x.id == j.id then x.start now wall else x).id = x.id ∧
          (if x.id == j.id then x.start now wall else x).path = x.path := by
        split <;> exact ⟨rfl, rfl⟩
      rw [same.1, same.2]
      exact List.mem_append_right _ (h.queued x hx)
    · intro k hk waits hs
      obtain ⟨x, hx, rfl⟩ := List.mem_map.mp hk
      by_cases same : (x.id == j.id) = true
      · rw [if_pos same] at waits
        simp [Job.isQueued, Job.start] at waits
      · rw [if_neg same] at waits hs
        rcases List.mem_append.mp hs with new | old
        · exact same (beq_iff_eq.mpr (Launch.started_mem new))
        · exact h.unstarted x hx waits old
    · intro id hs
      rcases List.mem_append.mp hs with new | old
      · rw [Launch.started_mem new]
        exact order.below j mine
      · exact h.below id old
    · intro k hk compiles
      rw [Launch.lastStarted_events]
      obtain ⟨x, hx, rfl⟩ := List.mem_map.mp hk
      by_cases same : (x.id == j.id) = true
      · rw [if_pos same]
        exact congrArg some (beq_iff_eq.mp same).symm
      · rw [if_neg same] at compiles
        rw [resting x hx] at compiles
        cases compiles
  | finish id j o now found =>
    refine h.keep [] rfl (by simp) rfl ?_
    intro k hk
    obtain ⟨x, hx, rfl⟩ := List.mem_map.mp hk
    refine ⟨x, hx, ?_⟩
    split
    next => exact ⟨rfl, rfl, .inl rfl⟩
    next => exact ⟨rfl, rfl, .inr rfl⟩
  | collect => exact h.keep_sub [_] rfl (by simp [Event.startedJob?]) rfl fun _ hj => hj
  | fire => exact h.keep_sub [_] rfl (by simp [Event.startedJob?]) rfl fun _ hj => hj
  | abandon => exact h.keep_sub [] rfl (by simp) rfl fun _ hj => (List.mem_filter.mp hj).1
  | drain s produced =>
    have silent : ∀ event ∈ .drained c.batch s :: produced.map Event.produced,
        event.startedJob? = none := by
      simp [Event.startedJob?]
    exact h.keep_sub _ rfl silent rfl fun _ hj => absurd hj List.not_mem_nil
  | drop =>
    refine h.keep_sub _ rfl ?_ rfl fun _ hj => (List.mem_filter.mp hj).1
    simp only [List.mem_reverse, List.mem_map]
    rintro _ ⟨k, _, rfl⟩
    rfl
  | restrict => exact h.keep_sub [_] rfl (by simp [Event.startedJob?]) rfl fun _ hj => hj
  | edit => exact h.keep_sub [_] rfl (by simp [Event.startedJob?]) rfl fun _ hj => hj

/-- A job that was dropped is not active any more. -/
theorem Ledger.dropped_gone {c : Core} (h : c.Ledger) {id : Nat} (dropped : .dropped id ∈ c.story) :
    ∀ j ∈ c.jobs, j.id ≠ id := by
  intro j hj same
  have nodup := h.places.nodup_iff.mpr (List.nodup_range' 1)
  have held : j.id ∈ c.held ++ told Event.closed c.story := by
    simp only [Core.held, List.mem_append, List.mem_map]
    exact .inl ⟨j, .inl hj, rfl⟩
  have discarded : id ∈ told Event.discarded c.story := by
    simp only [told, List.mem_flatMap, List.mem_reverse]
    exact ⟨_, dropped, by simp [Event.discarded]⟩
  exact (List.nodup_append.mp nodup).2.2 _ held _ discarded same

end Core

namespace Engine

variable {σ : Type}

theorem fresh_traced (graph : FileGraph) (options : EngineOptions) (site : σ) (dawn : Nat) :
    (fresh graph options site dawn).core.Traced :=
  ⟨fun _ h => absurd h List.not_mem_nil, fun _ h => absurd h List.not_mem_nil,
    fun _ h => absurd h List.not_mem_nil, fun _ h => absurd h List.not_mem_nil⟩

end Engine

end StoryBuild
