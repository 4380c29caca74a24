import StoryBuild.Proofs.Batches

namespace StoryBuild

/-- Where a call stands with the waiting masters. They are due after the end of a batch and after
the return to editing; then they are taken off the list, and their turns come one by one. -/
inductive Stage where
  | steady
  | due
  | promoting (left : List Path)
  | facing (p : Path) (left : List Path)

namespace Stage

/-- The masters whose turns are still to come. -/
def toCome : Stage → List Path
  | promoting left => left
  | facing _ left => left
  | _ => []

/-- No snapshot is written between the turn of a master and what comes of it. -/
def MaySave : Stage → Prop
  | facing _ _ => False
  | _ => True

theorem maySave_steady : MaySave .steady := trivial

theorem maySave_due : MaySave .due := trivial

/-- The stage before and after a master is queued. -/
inductive Queues (p : Path) : Stage → Stage → Prop where
  | steady : Queues p .steady .steady
  | facing {left : List Path} : Queues p (.facing p left) (.promoting left)

theorem Queues.maySave {p : Path} {s t : Stage} (h : Queues p s t) : t.MaySave := by
  cases h with
  | steady => exact maySave_steady
  | facing => trivial

end Stage

/-- Conditions on the steps that a call is free to take or not: queueing a job, entering the
restricted mode, ending a batch, and dropping what is not complete. -/
structure Rules where
  queue : Core → Prop
  restrict : Core → Prop
  close : Core → Prop
  drop : Core → Pending → Prop

/-- No conditions. -/
def Rules.free : Rules :=
  ⟨fun _ => True, fun _ => True, fun _ => True, fun _ _ => True⟩

/-- Conditions that hold wherever an engine looks at itself before it acts. -/
structure Rules.Lenient (R : Rules) : Prop where
  queue : ∀ c : Core, c.mode = .editing → R.queue c
  restrict : ∀ c : Core, c.jobs = [] → c.abandoned = [] → R.restrict c
  close : ∀ c : Core, (∀ j ∈ c.jobs, j.isQueued = false) → R.close c

theorem Rules.free_lenient : Rules.free.Lenient :=
  ⟨fun _ _ => trivial, fun _ _ _ => trivial, fun _ _ => trivial⟩

/-- The log line of a refused snapshot. -/
def refusalLine : LogLine :=
  ⟨.engine, .warn, "failed to persist queue state"⟩

/-- The log line of a compile that is given up. -/
def timeoutLine : LogLine :=
  ⟨.engine, .error, "compile timed out; abandoning job"⟩

/-- Events that say nothing about jobs, the mode or the disk. -/
def Event.isQuiet : Event → Bool
  | .host _ => true
  | .stopped _ _ => true
  | .log _ => true
  | _ => false

/-- A storage after a compile was performed in it, or came on while the engine slept. -/
inductive Wanders {σ : Type} [Workshop σ] (s : σ) : σ → Prop where
  | perform (r : Request) : Wanders s (Workshop.perform s r).2
  | meanwhile (r : Request) (progress : Progress) :
      Wanders s (Workshop.meanwhile s r progress).2

/-- An engine without what no queue and no disk goes by, and with the stage of its call. A call
moves it by steps that are finer than those of a core, down to the single write. -/
structure Desk (σ : Type) where
  options : EngineOptions
  jobs : List Job
  abandoned : List Job
  worker : Option Nat
  nextId : Nat
  mode : Mode
  pending : Pending
  graph : FileGraph
  site : σ
  trace : List Event
  stage : Stage
  /-- Whether all that waits or is active went into a snapshot. -/
  saved : Bool

/-- The desk of an engine. -/
def Engine.desk {σ : Type} (e : Engine σ) (stage : Stage) (saved : Bool) : Desk σ :=
  ⟨e.options, e.jobs, e.abandoned, e.inFlight.map Worker.job, e.nextId, e.mode, e.pending, e.graph,
    e.site, e.trace, stage, saved⟩

namespace Desk

variable {σ : Type}

/-- The scheduling core of a desk. -/
def core (d : Desk σ) : Core :=
  ⟨d.jobs, d.abandoned, d.worker, d.nextId, d.mode, d.trace.filter Event.isStory⟩

/-- The queue as it is kept on disk. -/
def snapshot (d : Desk σ) : Snapshot where
  pending := d.pending.order.map fun p => slashed p.text
  active := d.jobs.map fun j => ⟨slashed j.path.text, j.state, j.startedWall.bind savedTime⟩

/-- The job of the next identity for a master. -/
def newJob (d : Desk σ) (master : Path) (immediate : Bool) : Job where
  id := d.nextId
  path := master
  input := d.graph.absolute master
  output := d.graph.absolute (d.graph.artifactPath master)
  immediate := immediate

variable [Workshop σ]

/-- One step of a desk. -/
inductive Step (R : Rules) : Desk σ → Desk σ → Prop where
  | tell {d : Desk σ} (event : Event) (quiet : event.isQuiet = true) :
      Step R d { d with trace := event :: d.trace }
  | wander {d : Desk σ} {site : σ} (how : Wanders d.site site) : Step R d { d with site }
  | save {d : Desk σ} (p : Path) {site : σ} (kept : d.options.statePath = some p)
      (may : d.stage.MaySave)
      (written : Storage.write d.site p d.snapshot.render.toUTF8 = (.ok (), site)) :
      Step R d
        { d with site, trace := .wrote p d.snapshot.render.toUTF8 :: d.trace, saved := true }
  | refuse {d : Desk σ} (p : Path) {site : σ} {cause : IoError}
      (kept : d.options.statePath = some p)
      (refused : Storage.write d.site p d.snapshot.render.toUTF8 = (.error cause, site)) :
      Step R d { d with site, trace := .log refusalLine :: d.trace, saved := true }
  | unkept {d : Desk σ} (none_ : d.options.statePath = none) : Step R d { d with saved := true }
  | queue {d : Desk σ} (master : Path) (immediate : Bool) {stage : Stage} (may : R.queue d.core)
      (is_master : d.graph.isMaster master = true)
      (free : ∀ k ∈ d.jobs, (k.path == master) = false) (turn : d.stage.Queues master stage) :
      Step R d
        { d with
          jobs := d.jobs ++ [d.newJob master immediate]
          nextId := d.nextId + 1
          pending := (d.pending.remove master).2
          trace := .queued d.nextId master :: d.trace
          stage
          saved := false }
  | start {d : Desk σ} (j : Job) (now wall : Nat) (launch : Launch)
      (idle : d.jobs.any Job.isCompiling = false) (free : d.worker = none)
      (first : d.jobs.find? Job.isQueued = some j) :
      Step R d
        { d with
          jobs := d.jobs.map fun k => if k.id == j.id then k.start now wall else k
          worker := launch.worker j.id
          trace := launch.events j.id ++ d.trace }
  | finish {d : Desk σ} (id : Nat) (j : Job) (o : Outcome) (now : Nat)
      (found : d.jobs.find? (fun k => k.id == id && k.isCompiling) = some j) :
      Step R d { d with jobs := d.jobs.map fun k => if k.id == id then k.finish o now else k }
  | collect {d : Desk σ} (id : Nat) (out : d.worker = some id) :
      Step R d { d with worker := none, trace := .collected id :: d.trace }
  | fire {d : Desk σ} (id : Nat) (out : d.worker = some id) :
      Step R d { d with worker := none, trace := .fired id :: d.trace }
  | abandon {d : Desk σ} (j given : Job) (found : d.jobs.find? Job.isCompiling = some j)
      (id : given.id = j.id) (path : given.path = j.path) (output : given.output = j.output) :
      Step R d
        { d with
          jobs := d.jobs.filter fun k => !(k.id == j.id)
          abandoned := d.abandoned ++ [given]
          trace := .log timeoutLine :: d.trace }
  | drain {e : Engine σ} (may : R.close e.core) :
      Step R (e.desk .steady true) (e.applyBatch.2.desk .due true)
  | drop {d : Desk σ} (may : R.drop d.core d.pending) (stage : d.stage = .steady) :
      Step R d
        { d with
          jobs := d.jobs.filter Job.isComplete
          trace := ((d.jobs.filter fun k => !k.isComplete).map fun k =>
            Event.dropped k.id).reverse ++ d.trace }
  | restrict {d : Desk σ} (may : R.restrict d.core) :
      Step R d { d with mode := .restricted, trace := .mode .restricted :: d.trace }
  | edit {d : Desk σ} (stage : d.stage = .steady) :
      Step R d { d with mode := .editing, trace := .mode .editing :: d.trace, stage := .due }
  | park {d : Desk σ} (p : Path) (stage : d.stage = .steady)
      (must : d.mode = .restricted ∨ ∃ k ∈ d.jobs, (k.path == p) = true) :
      Step R d
        { d with pending := (d.pending.push p).2, saved := d.saved && !(d.pending.push p).1 }
  | take {d : Desk σ} (stage : d.stage = .due) :
      Step R d
        { d with
          pending := {}
          trace := .toCome d.pending.order :: d.trace
          stage := .promoting d.pending.order }
  | turn {d : Desk σ} {p : Path} {left : List Path} (stage : d.stage = .promoting (p :: left)) :
      Step R d { d with trace := .toCome left :: d.trace, stage := .facing p left }
  | putBack {d : Desk σ} {p : Path} {left : List Path} (stage : d.stage = .facing p left)
      (active : ∃ k ∈ d.jobs, (k.path == p) = true) :
      Step R d
        { d with
          pending := (d.pending.push p).2
          stage := .promoting left
          saved := d.saved && !(d.pending.push p).1 }
  | forget {d : Desk σ} {p : Path} {left : List Path} (stage : d.stage = .facing p left)
      (gone : d.graph.isMaster p = false) : Step R d { d with stage := .promoting left }
  | done {d : Desk σ} (stage : d.stage = .promoting []) : Step R d { d with stage := .steady }
  | rest {d : Desk σ} (stage : d.stage = .due)
      (idle : d.mode = .restricted ∨ d.pending.order = []) : Step R d { d with stage := .steady }

/-- Any number of steps. -/
abbrev Course (R : Rules) : Desk σ → Desk σ → Prop :=
  Relation.ReflTransGen (Step R)

/-- What one step preserves, any number of steps preserve. -/
theorem course_preserves {R : Rules} {P : Desk σ → Prop}
    (one : ∀ {c d}, Step R c d → P c → P d) {c d : Desk σ} (h : Course R c d) (hc : P c) : P d := by
  induction h with
  | refl => exact hc
  | tail _ step ih => exact one step ih

/-- A step of a desk is a step of its core, or leaves it alone. -/
theorem step_core {R : Rules} {c d : Desk σ} (h : Step R c d) :
    Core.Steps R.queue R.restrict c.core d.core := by
  cases h with
  | tell event quiet =>
    have silent : event.isStory = false := by
      cases event <;> first | rfl | cases quiet
    simp only [core, List.filter_cons_of_neg (Bool.eq_false_iff.mp silent)]
    exact .refl
  | queue master immediate may is_master free turn =>
    exact .single (.queue (c.newJob master immediate) may rfl rfl free)
  | start j now wall launch idle free first =>
    have story : (launch.events j.id ++ c.trace).filter Event.isStory =
        launch.events j.id ++ c.trace.filter Event.isStory := by
      cases launch <;> rfl
    simp only [core, story]
    exact .single (.start (c := c.core) j now wall launch idle free first)
  | finish id j o now found => exact .single (.finish (c := c.core) id j o now found)
  | collect id out => exact .single (.collect (c := c.core) id out)
  | fire id out => exact .single (.fire (c := c.core) id out)
  | abandon j given found id path _ =>
    exact .single (.abandon (c := c.core) j given found id path)
  | drain => exact Engine.applyBatch_steps _
  | drop =>
    have story (l : List Job) : ((l.map fun k => Event.dropped k.id).reverse ++
        c.trace).filter Event.isStory =
        (l.map fun k => Event.dropped k.id).reverse ++ c.trace.filter Event.isStory := by
      rw [List.filter_append, List.filter_eq_self.mpr]
      simp [Event.isStory]
    simp only [core, story]
    exact .single (.drop (c := c.core))
  | restrict may => exact .single (.restrict may)
  | edit => exact .single (.edit (c := c.core))
  | _ => exact .refl

end Desk

end StoryBuild
