import StoryBuild.Engine.Restore
import Mathlib.Logic.Relation

namespace StoryBuild

/-- Whether an event tells about jobs, compiles or the mode. -/
def Event.isStory : Event → Bool
  | .host _ => false
  | .stopped _ _ => false
  | .applied _ => false
  | .toCome _ => false
  | .wrote _ _ => false
  | .log _ => false
  | _ => true

/-- What the scheduling of an engine goes by. What is done to the log, the disk, the graph or the
host leaves it alone. The story has its latest event first. -/
structure Core where
  jobs : List Job
  abandoned : List Job
  /-- The job that the outstanding worker compiles. -/
  worker : Option Nat
  nextId : Nat
  mode : Mode
  story : List Event

/-- How the compile of a job is set going, unless it fails before. -/
inductive Launch where
  | failed
  | here (master : Path)
  | lost
  | away (master : Path)

namespace Launch

/-- What a launch tells, the latest first. -/
def events (id : Nat) : Launch → List Event
  | failed => [.started id]
  | here master => [.collected id, .called id master, .begun id, .started id]
  | lost => [.begun id, .started id]
  | away master => [.called id master, .begun id, .started id]

/-- The job of the worker after a launch. -/
def worker (id : Nat) : Launch → Option Nat
  | failed => none
  | here _ => none
  | lost => some id
  | away _ => some id

end Launch

namespace Core

/-- The jobs of a batch in the order of their identities. -/
def batch (c : Core) : List Job :=
  Job.sortById (c.jobs ++ c.abandoned)

/-- One step of a core. Jobs are queued, and the restricted mode is entered, only where the two
conditions allow it. -/
inductive Step (mayQueue mayRestrict : Core → Prop) : Core → Core → Prop where
  | queue {c : Core} (j : Job) (may : mayQueue c) (fresh : j.id = c.nextId)
      (state : j.isQueued = true) (free : ∀ k ∈ c.jobs, (k.path == j.path) = false) :
      Step mayQueue mayRestrict c
        { c with
          jobs := c.jobs ++ [j]
          nextId := c.nextId + 1
          story := .queued j.id j.path :: c.story }
  | start {c : Core} (j : Job) (now wall : Nat) (launch : Launch)
      (idle : c.jobs.any Job.isCompiling = false) (free : c.worker = none)
      (first : c.jobs.find? Job.isQueued = some j) :
      Step mayQueue mayRestrict c
        { c with
          jobs := c.jobs.map fun k => if k.id == j.id then k.start now wall else k
          worker := launch.worker j.id
          story := launch.events j.id ++ c.story }
  | finish {c : Core} (id : Nat) (j : Job) (o : Outcome) (now : Nat)
      (found : c.jobs.find? (fun k => k.id == id && k.isCompiling) = some j) :
      Step mayQueue mayRestrict c
        { c with jobs := c.jobs.map fun k => if k.id == id then k.finish o now else k }
  | collect {c : Core} (id : Nat) (out : c.worker = some id) :
      Step mayQueue mayRestrict c { c with worker := none, story := .collected id :: c.story }
  | fire {c : Core} (id : Nat) (out : c.worker = some id) :
      Step mayQueue mayRestrict c { c with worker := none, story := .fired id :: c.story }
  | abandon {c : Core} (j given : Job) (found : c.jobs.find? Job.isCompiling = some j)
      (id : given.id = j.id) (path : given.path = j.path) :
      Step mayQueue mayRestrict c
        { c with
          jobs := c.jobs.filter fun k => !(k.id == j.id)
          abandoned := c.abandoned ++ [given] }
  | drain {c : Core} (s : Summary) (produced : List Nat)
      (from_batch : ∀ i ∈ produced, i ∈ c.batch.map Job.id)
      (compiled : s.compiled = c.batch.map Job.path) :
      Step mayQueue mayRestrict c
        { c with
          jobs := []
          abandoned := []
          story := .drained c.batch s :: (produced.map Event.produced ++ c.story) }
  | drop {c : Core} :
      Step mayQueue mayRestrict c
        { c with
          jobs := c.jobs.filter Job.isComplete
          story := ((c.jobs.filter fun k => !k.isComplete).map fun k =>
            Event.dropped k.id).reverse ++ c.story }
  | restrict {c : Core} (may : mayRestrict c) :
      Step mayQueue mayRestrict c
        { c with mode := .restricted, story := .mode .restricted :: c.story }
  | edit {c : Core} :
      Step mayQueue mayRestrict c
        { c with mode := .editing, story := .mode .editing :: c.story }

/-- Any number of steps. -/
abbrev Steps (mayQueue mayRestrict : Core → Prop) : Core → Core → Prop :=
  Relation.ReflTransGen (Step mayQueue mayRestrict)

/-- Any number of steps under no condition. -/
abbrev Moves : Core → Core → Prop :=
  Steps (fun _ => True) (fun _ => True)

/-- What one step preserves, any number of steps preserve. -/
theorem steps_preserve {mayQueue mayRestrict : Core → Prop} {P : Core → Prop}
    (one : ∀ {c d}, Step mayQueue mayRestrict c d → P c → P d) {c d : Core}
    (h : Steps mayQueue mayRestrict c d) (hc : P c) : P d := by
  induction h with
  | refl => exact hc
  | tail _ step ih => exact one step ih

/-- A story only grows. -/
theorem step_story {mayQueue mayRestrict : Core → Prop} {c d : Core}
    (h : Step mayQueue mayRestrict c d) : c.story <:+ d.story := by
  cases h with
  | finish => exact List.suffix_refl _
  | abandon => exact List.suffix_refl _
  | start => exact List.suffix_append _ _
  | drop => exact List.suffix_append _ _
  | drain s produced => exact (List.suffix_append _ _).trans (List.suffix_cons _ _)
  | _ => exact List.suffix_cons _ _

theorem steps_story {mayQueue mayRestrict : Core → Prop} {c d : Core}
    (h : Steps mayQueue mayRestrict c d) : c.story <:+ d.story := by
  induction h with
  | refl => exact List.suffix_refl _
  | tail _ step ih => exact ih.trans (step_story step)

end Core

namespace Engine

variable {σ : Type}

/-- The part of the trace that tells about jobs, compiles and the mode. -/
def story (e : Engine σ) : List Event :=
  e.trace.filter Event.isStory

/-- The scheduling core of an engine. -/
def core (e : Engine σ) : Core :=
  ⟨e.jobs, e.abandoned, e.inFlight.map Worker.job, e.nextId, e.mode, e.story⟩

@[simp] theorem core_jobs (e : Engine σ) : e.core.jobs = e.jobs := rfl

@[simp] theorem core_nextId (e : Engine σ) : e.core.nextId = e.nextId := rfl

@[simp] theorem core_mode (e : Engine σ) : e.core.mode = e.mode := rfl

@[simp] theorem core_story (e : Engine σ) : e.core.story = e.story := rfl

@[simp] theorem core_abandoned (e : Engine σ) : e.core.abandoned = e.abandoned := rfl

theorem graph_core (e : Engine σ) (graph : FileGraph) : { e with graph }.core = e.core := rfl

theorem withAbandoned_core (e : Engine σ) (abandoned : List Job) :
    { e with abandoned }.core = { e.core with abandoned } := rfl

/-- Engines with one core agree on everything that the core holds. -/
theorem mode_eq_of_core {e d : Engine σ} (h : e.core = d.core) : e.mode = d.mode := by
  rw [← core_mode, h, core_mode]

theorem jobs_eq_of_core {e d : Engine σ} (h : e.core = d.core) : e.jobs = d.jobs := by
  rw [← core_jobs, h, core_jobs]

theorem abandoned_eq_of_core {e d : Engine σ} (h : e.core = d.core) :
    e.abandoned = d.abandoned := by
  rw [← core_abandoned, h, core_abandoned]

@[simp] theorem note_story (e : Engine σ) (event : Event) :
    (e.note event).story = if event.isStory then event :: e.story else e.story := by
  simp [story, note, List.filter_cons]

@[simp] theorem noteAll_story (e : Engine σ) (events : List Event) :
    (e.noteAll events).story = (events.filter Event.isStory).reverse ++ e.story := by
  simp [story, noteAll]

theorem note_core {e : Engine σ} {event : Event} (h : event.isStory = false) :
    (e.note event).core = e.core := by
  have hs : (e.note event).story = e.story := by simp [h]
  simp only [core, hs]
  rfl

@[simp] theorem tell_core (e : Engine σ) (event : HostEvent) : (e.tell event).core = e.core :=
  note_core rfl

@[simp] theorem warn_core (e : Engine σ) (message : String) : (e.warn message).core = e.core :=
  note_core rfl

@[simp] theorem error_core (e : Engine σ) (message : String) : (e.error message).core = e.core :=
  note_core rfl

@[simp] theorem logAll_core (e : Engine σ) (lines : List LogLine) :
    (e.logAll lines).core = e.core := by
  have hs : (e.logAll lines).story = e.story := by simp [logAll, Event.isStory]
  simp only [core, hs]
  rfl

@[simp] theorem persist_core [Storage σ] (e : Engine σ) : e.persist.core = e.core := by
  unfold persist
  split
  next => rfl
  next p _ =>
    dsimp only
    split
    next site _ => exact note_core (e := { e with site }) rfl
    next site _ => exact warn_core { e with site } _

@[simp] theorem suspendHost_core (e : Engine σ) : e.suspendHost.core = e.core := by
  unfold suspendHost
  split
  next => exact tell_core e _
  next => rfl

@[simp] theorem releaseHost_core (e : Engine σ) : e.releaseHost.core = e.core := by
  unfold releaseHost
  split
  next => exact tell_core { e with suspended := false } _
  next => rfl

@[simp] theorem passTime_core (e : Engine σ) : e.passTime.core = e.core := by
  unfold passTime
  split
  next => rfl
  next => split <;> rfl

@[simp] theorem breathe_core [Workshop σ] (e : Engine σ) : e.breathe.core = e.core := by
  unfold breathe
  split
  next r lines deaf next h => simp [core, story, h, Worker.job]
  next => rfl

end Engine

end StoryBuild
