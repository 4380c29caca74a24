import StoryBuild.Sandbox
import StoryBuild.Proofs.Calls

namespace StoryBuild

/-- Whether an event makes a job, begins a compile or brings out an artifact. -/
def Event.isWork : Event → Bool
  | .queued _ _ => true
  | .started _ => true
  | .begun _ => true
  | .called _ _ => true
  | .produced _ => true
  | _ => false

/-- The mode that an event sets. -/
def Event.modeSet? : Event → Option Mode
  | .mode m => some m
  | _ => none

/-- The mode after a trace, which has its latest event first. -/
def modeAfter (trace : List Event) : Mode :=
  (trace.findSome? Event.modeSet?).getD .editing

/-- Whenever there was work, the mode was not the restricted one. -/
def RestsWhileRestricted (trace : List Event) : Prop :=
  ∀ event earlier, event :: earlier <:+ trace → event.isWork = true → modeAfter earlier = .editing

theorem modeAfter_cons {event : Event} (trace : List Event) (h : event.modeSet? = none) :
    modeAfter (event :: trace) = modeAfter trace := by
  simp [modeAfter, h]

theorem modeAfter_append {events : List Event} (trace : List Event)
    (h : ∀ event ∈ events, event.modeSet? = none) :
    modeAfter (events ++ trace) = modeAfter trace := by
  have nothing : events.findSome? Event.modeSet? = none := List.findSome?_eq_none_iff.mpr h
  simp [modeAfter, nothing]

theorem rests_cons {event : Event} {trace : List Event} :
    RestsWhileRestricted (event :: trace) ↔
      (event.isWork = true → modeAfter trace = .editing) ∧ RestsWhileRestricted trace := by
  constructor
  · intro h
    refine ⟨h event trace (List.suffix_refl _), ?_⟩
    intro x earlier within
    exact h x earlier (within.trans (List.suffix_cons _ _))
  · intro ⟨now, before⟩ x earlier within
    rcases List.suffix_cons_iff.mp within with same | within
    · cases same
      exact now
    · exact before x earlier within

/-- Rest is decided along the trace. -/
instance decideRests : (trace : List Event) → Decidable (RestsWhileRestricted trace)
  | [] => isTrue (by intro event earlier within; simp at within)
  | _ :: trace =>
    have := decideRests trace
    decidable_of_iff _ rests_cons.symm

theorem RestsWhileRestricted.suffix {earlier trace : List Event} (h : RestsWhileRestricted trace)
    (within : earlier <:+ trace) : RestsWhileRestricted earlier :=
  fun event rest inner => h event rest (inner.trans within)

/-- Events that are no work. -/
theorem RestsWhileRestricted.idle {events trace : List Event} (h : RestsWhileRestricted trace)
    (idle : ∀ event ∈ events, event.isWork = false) : RestsWhileRestricted (events ++ trace) := by
  induction events with
  | nil => exact h
  | cons event rest ih =>
    refine rests_cons.mpr ⟨?_, ih fun x hx => idle x (List.mem_cons_of_mem _ hx)⟩
    intro work
    rw [idle event (by simp)] at work
    exact absurd work (by simp)

/-- Events while sources are edited. -/
theorem RestsWhileRestricted.edit {events trace : List Event} (h : RestsWhileRestricted trace)
    (editing : modeAfter trace = .editing) (keep : ∀ event ∈ events, event.modeSet? = none) :
    RestsWhileRestricted (events ++ trace) := by
  induction events with
  | nil => exact h
  | cons event rest ih =>
    have keep_rest : ∀ x ∈ rest, x.modeSet? = none := fun x hx => keep x (List.mem_cons_of_mem _ hx)
    exact rests_cons.mpr ⟨fun _ => (modeAfter_append trace keep_rest).trans editing, ih keep_rest⟩

theorem modeAfter_story (trace : List Event) :
    modeAfter (trace.filter Event.isStory) = modeAfter trace := by
  induction trace with
  | nil => rfl
  | cons event rest ih =>
    cases h : event.isStory with
    | true =>
      rw [List.filter_cons_of_pos h]
      cases hm : event.modeSet? with
      | none => rw [modeAfter_cons _ hm, modeAfter_cons _ hm, ih]
      | some m => simp [modeAfter, hm]
    | false =>
      have silent : event.modeSet? = none := by
        cases event <;> simp_all [Event.isStory, Event.modeSet?]
      rw [List.filter_cons_of_neg (by simp [h]), modeAfter_cons _ silent, ih]

/-- What is left out of a story is no work and sets no mode. -/
theorem rests_story (trace : List Event) :
    RestsWhileRestricted (trace.filter Event.isStory) ↔ RestsWhileRestricted trace := by
  induction trace with
  | nil => rfl
  | cons event rest ih =>
    rw [rests_cons, ← ih, ← modeAfter_story rest]
    cases h : event.isStory with
    | true => rw [List.filter_cons_of_pos h, rests_cons]
    | false =>
      have idle : event.isWork = false := by
        cases event <;> simp_all [Event.isStory, Event.isWork]
      rw [List.filter_cons_of_neg (by simp [h])]
      simp [idle]

namespace Core

/-- Jobs are made while sources are edited. -/
abbrev Editing (c : Core) : Prop :=
  c.mode = .editing

/-- The restricted mode is entered between batches. -/
abbrev Unoccupied (c : Core) : Prop :=
  c.jobs = [] ∧ c.abandoned = []

/-- While the mode is restricted there are no jobs, and there was no work while it was. -/
structure Resting (c : Core) : Prop where
  empty : c.mode = .restricted → c.Unoccupied
  mode : modeAfter c.story = c.mode
  rests : RestsWhileRestricted c.story

theorem Resting.editing_of_job {c : Core} {j : Job} (h : c.Resting) (mine : j ∈ c.jobs) :
    c.mode = .editing := by
  cases hm : c.mode with
  | editing => rfl
  | restricted =>
    rw [(h.empty hm).1] at mine
    exact absurd mine (List.not_mem_nil)

/-- A step that sets no mode, works only while sources are edited, and makes no job otherwise. -/
theorem Resting.keep {c d : Core} (h : c.Resting) (events : List Event)
    (story : d.story = events ++ c.story) (mode : d.mode = c.mode)
    (silent : ∀ event ∈ events, event.modeSet? = none)
    (work : c.mode = .editing ∨ ∀ event ∈ events, event.isWork = false)
    (empty : c.mode = .restricted → d.Unoccupied) : d.Resting := by
  refine ⟨mode ▸ empty, ?_, ?_⟩
  · rw [story, modeAfter_append _ silent, mode]
    exact h.mode
  · rw [story]
    rcases work with editing | idle
    · exact h.rests.edit (h.mode.trans editing) silent
    · exact h.rests.idle idle

theorem Launch.sets_no_mode (id : Nat) (launch : Launch) :
    ∀ event ∈ launch.events id, event.modeSet? = none := by
  cases launch <;> simp [Launch.events, Event.modeSet?]

theorem step_resting {c d : Core} (step : Step Editing Unoccupied c d) (h : c.Resting) :
    d.Resting := by
  have never : c.mode = .editing → c.mode = .restricted → d.Unoccupied := by
    intro editing restricted
    rw [editing] at restricted
    cases restricted
  cases step with
  | queue j may fresh state free =>
    exact h.keep [_] rfl rfl (by simp [Event.modeSet?]) (.inl may) (never may)
  | start j now wall launch idle free first =>
    have editing := h.editing_of_job (List.mem_of_find?_eq_some first)
    exact h.keep _ rfl rfl (Launch.sets_no_mode j.id launch) (.inl editing) (never editing)
  | finish id j o now found =>
    have editing := h.editing_of_job (List.mem_of_find?_eq_some found)
    exact h.keep [] rfl rfl (by simp) (.inl editing) (never editing)
  | collect id out =>
    have idle : ∀ event ∈ [Event.collected id], event.isWork = false := by simp [Event.isWork]
    exact h.keep [_] rfl rfl (by simp [Event.modeSet?]) (.inr idle) h.empty
  | fire id out =>
    have idle : ∀ event ∈ [Event.fired id], event.isWork = false := by simp [Event.isWork]
    exact h.keep [_] rfl rfl (by simp [Event.modeSet?]) (.inr idle) h.empty
  | abandon j given found id path =>
    have editing := h.editing_of_job (List.mem_of_find?_eq_some found)
    exact h.keep [] rfl rfl (by simp) (.inl editing) (never editing)
  | drain s produced from_batch compiled =>
    have silent : ∀ event ∈ .drained c.batch s :: produced.map Event.produced,
        event.modeSet? = none := by
      simp [Event.modeSet?]
    refine h.keep _ rfl rfl silent ?_ fun _ => ⟨rfl, rfl⟩
    cases hm : c.mode with
    | editing => exact .inl rfl
    | restricted =>
      obtain ⟨no_jobs, no_abandoned⟩ := h.empty hm
      have none_produced : produced = [] := by
        refine List.eq_nil_iff_forall_not_mem.mpr fun i hi => ?_
        have := from_batch i hi
        simp [batch, Job.sortById, no_jobs, no_abandoned] at this
      exact .inr (by simp [none_produced, Event.isWork])
  | drop =>
    refine h.keep _ rfl rfl ?_ (.inr ?_) ?_
    · simp only [List.mem_reverse, List.mem_map]
      rintro _ ⟨k, _, rfl⟩
      rfl
    · simp only [List.mem_reverse, List.mem_map]
      rintro _ ⟨k, _, rfl⟩
      rfl
    · intro restricted
      obtain ⟨no_jobs, no_abandoned⟩ := h.empty restricted
      exact ⟨by simp [no_jobs], no_abandoned⟩
  | restrict may => exact ⟨fun _ => may, rfl, rests_cons.mpr ⟨by simp [Event.isWork], h.rests⟩⟩
  | edit => exact ⟨by simp, rfl, rests_cons.mpr ⟨by simp [Event.isWork], h.rests⟩⟩

end Core

namespace Engine

variable {σ : Type} [Workshop σ]

/-- Leaves the mode to the two rules: no compile is asked for by name alone, and the host sets the
restricted mode only while no batch is outstanding. -/
def Follows (e : Engine σ) : Act σ → Prop
  | .enqueue _ _ _ => False
  | .setMode .restricted _ => e.isBusy = false
  | _ => True

/-- An immediate request for a file finds sources being edited whenever one of its masters is
accepted. -/
def TurnsOpen (e : Engine σ) : Act σ → Prop
  | .compileFile p true => FileTurnsIn (fun e => e.mode = .editing) e p true
  | _ => True

/-- What holds of every happening of a run. -/
def Throughout (ok : Engine σ → Act σ → Prop) : List (Act σ) → Engine σ → Prop
  | [], _ => True
  | a :: rest, e => ok e a ∧ Throughout ok rest (e.act a)

/-- A file with one master takes one turn, which comes at once. -/
theorem single_owner_open {e : Engine σ} {p : Path} {f : SourceFile}
    (found : e.graph.file? p = some f)
    (one : (if f.isMaster then [p] else f.masters).length ≤ 1) :
    e.TurnsOpen (.compileFile p true) := by
  simp only [TurnsOpen, FileTurnsIn, found]
  intro open_
  have editing : e.mode = .editing := editing_of_not_restricted (by simpa using open_)
  cases owners : (if f.isMaster then [p] else f.masters) with
  | nil => trivial
  | cons m rest =>
    cases rest with
    | nil =>
      refine ⟨fun _ => editing, ?_⟩
      split <;> trivial
    | cons n rest =>
      rw [owners] at one
      simp at one

/-- What is only queued does not change the mode, so every master of the file has its turn. -/
theorem queued_turns_in (masters : List Path) (e : Engine σ) (editing : e.mode = .editing) :
    TurnsIn (fun e => e.mode = .editing) false masters e := by
  induction masters generalizing e with
  | nil => trivial
  | cons p rest ih =>
    have kept : (e.enqueue p false).2.mode = .editing := by
      unfold enqueue enqueueAt
      have same := e.submit_mode p false e.clock
      split
      next h =>
        rw [h] at same
        exact same.trans editing
      next h =>
        rw [h] at same
        exact same.trans editing
    refine ⟨fun _ => editing, ?_⟩
    split
    next h =>
      rw [h] at kept
      exact ih _ kept
    next master after h =>
      rw [h] at kept
      refine ih _ ?_
      split
      next => exact (persist_mode _).trans kept
      next => exact kept
    next => trivial

theorem queued_file_turns_in (e : Engine σ) (p : Path) :
    FileTurnsIn (fun e => e.mode = .editing) e p false := by
  unfold FileTurnsIn
  split
  next => trivial
  next =>
    intro open_
    exact queued_turns_in _ e (editing_of_not_restricted (by simpa using open_))

theorem compileOwners_moves (immediate : Bool) (masters : List Path) (e : Engine σ) :
    Core.Moves e.core (compileOwners immediate masters e).2.core :=
  compileOwners_steps (fun _ _ => trivial) (fun _ _ _ => trivial) immediate masters e
    (turns_in_free immediate masters e)

/-- An accepted request tells of its job. -/
theorem enqueue_story {e : Engine σ} {p : Path} (immediate : Bool) (h : e.refusal? p = none) :
    .queued e.nextId p :: e.story <:+ (e.enqueue p immediate).2.story := by
  have drained : Core.Moves (e.addJob p immediate).core
      ((e.addJob p immediate).drain e.clock).2.core := drain_steps _ _
  have submitted : e.submit p immediate e.clock =
      (.ok e.nextId, ((e.addJob p immediate).drain e.clock).2) := by
    simp only [submit, h]
  rw [← addJob_story]
  refine (Core.steps_story drained).trans ?_
  simp only [enqueue, enqueueAt, submitted]
  split
  next =>
    have waited (steps : Nat) (d : Engine σ) : Core.Moves d.core (waitFor e.nextId steps d).core :=
      waitFor_steps (fun _ _ => trivial) (fun _ _ _ => trivial) e.nextId steps d
    exact Core.steps_story (waited _ _)
  next => exact List.suffix_refl _

theorem enqueue_resting {e : Engine σ} {p : Path} (immediate : Bool) (h : e.core.Resting)
    (may : e.refusal? p = none → e.mode = .editing) :
    (e.enqueue p immediate).2.core.Resting :=
  Core.steps_preserve Core.step_resting
    (enqueueAt_steps (fun _ editing => editing) (fun _ jobs abandoned => ⟨jobs, abandoned⟩)
      immediate e.clock may) h

/-- What the first of several masters led to stays. -/
theorem compileOwners_story (immediate : Bool) (p : Path) (rest : List Path) (e : Engine σ) :
    (e.enqueue p immediate).2.story <:+ (compileOwners immediate (p :: rest) e).2.story := by
  unfold compileOwners
  split
  next h =>
    rw [h]
    exact Core.steps_story (compileOwners_moves immediate rest _)
  next master after h =>
    rw [h, ← core_story after, ← after.park_persist_core master]
    exact Core.steps_story (compileOwners_moves immediate rest _)
  next h => exact h ▸ List.suffix_refl _

/-- Where a request for masters left rest in the restricted mode, its turns were open. -/
theorem turns_in_of_rests {immediate : Bool} (masters : List Path) (e : Engine σ)
    (resting : e.core.Resting)
    (rests : RestsWhileRestricted (compileOwners immediate masters e).2.story) :
    TurnsIn (fun e => e.mode = .editing) immediate masters e := by
  induction masters generalizing e with
  | nil => trivial
  | cons p rest ih =>
    have may : e.refusal? p = none → e.mode = .editing := by
      intro accepted
      have told := (enqueue_story immediate accepted).trans (compileOwners_story immediate p rest e)
      exact resting.mode.symm.trans ((rests_cons.mp (rests.suffix told)).1 rfl)
    refine ⟨may, ?_⟩
    have next_resting := enqueue_resting immediate resting may
    unfold compileOwners at rests
    split
    next h =>
      rw [h] at rests next_resting
      exact ih _ next_resting rests
    next master after h =>
      rw [h] at rests next_resting
      refine ih _ ?_ rests
      rwa [park_persist_core]
    next => trivial

theorem turns_open_of_rests {e : Engine σ} {a : Act σ} (resting : e.core.Resting)
    (rests : RestsWhileRestricted (e.act a).story) : e.TurnsOpen a := by
  unfold TurnsOpen
  split
  next p =>
    unfold FileTurnsIn
    split
    next => trivial
    next f h =>
      intro open_
      simp only [act, compileFile, h] at rests
      generalize (if f.isMaster then [p] else f.masters) = masters at rests ⊢
      split at rests
      next none_ =>
        rw [List.isEmpty_iff.mp none_]
        trivial
      next =>
        split at rests
        next restricted => exact absurd (by simpa using restricted) open_
        next => exact turns_in_of_rests masters e resting rests
  next => trivial

/-- A happening that follows the rules, with open turns, moves the core under the two conditions. -/
theorem permits_of_open {e : Engine σ} {a : Act σ} (follows : e.Follows a)
    (turns : e.TurnsOpen a) : e.Permits Core.Editing Core.Unoccupied a := by
  cases a with
  | enqueue => exact absurd follows id
  | setMode mode =>
    cases mode with
    | editing => trivial
    | restricted =>
      simpa [Follows, isBusy, Permits, Core.Unoccupied] using follows
  | compileFile p immediate =>
    cases immediate with
    | true => exact turns
    | false => exact e.queued_file_turns_in p
  | _ => trivial

theorem act_resting {e : Engine σ} {a : Act σ} (resting : e.core.Resting) (follows : e.Follows a)
    (turns : e.TurnsOpen a) : (e.act a).core.Resting :=
  Core.steps_preserve Core.step_resting
    (act_steps (fun _ editing => editing) (fun _ jobs abandoned => ⟨jobs, abandoned⟩)
      (permits_of_open follows turns)) resting

theorem run_resting (acts : List (Act σ)) (e : Engine σ) (resting : e.core.Resting)
    (follows : Throughout Follows acts e) (turns : Throughout TurnsOpen acts e) :
    (e.run acts).core.Resting := by
  induction acts generalizing e with
  | nil => exact resting
  | cons a rest ih =>
    exact ih _ (act_resting resting follows.1 turns.1) follows.2 turns.2

theorem turns_open_of_run (acts : List (Act σ)) (e : Engine σ) (resting : e.core.Resting)
    (follows : Throughout Follows acts e) (rests : RestsWhileRestricted (e.run acts).story) :
    Throughout TurnsOpen acts e := by
  induction acts generalizing e with
  | nil => trivial
  | cons a rest ih =>
    have first : RestsWhileRestricted (e.act a).story :=
      rests.suffix (Core.steps_story ((e.act a).run_moves rest))
    have turns := turns_open_of_rests resting first
    exact ⟨turns, ih _ (act_resting resting follows.1 turns) follows.2 rests⟩

omit [Workshop σ] in
theorem fresh_resting (graph : FileGraph) (options : EngineOptions) (site : σ) (dawn : Nat) :
    (fresh graph options site dawn).core.Resting := by
  refine ⟨?_, rfl, ?_⟩
  · intro restricted
    cases restricted
  · intro event earlier within
    simp at within

/-- A run of a new engine that leaves the mode to the rules rests while the stories are in use
exactly if no immediate request for a file has a master accepted after the mode changed under it. -/
theorem run_rests_iff (graph : FileGraph) (options : EngineOptions) (site : σ) (dawn : Nat)
    (acts : List (Act σ))
    (follows : Throughout Follows acts (fresh graph options site dawn)) :
    RestsWhileRestricted ((fresh graph options site dawn).run acts).trace ↔
      Throughout TurnsOpen acts (fresh graph options site dawn) := by
  have resting := fresh_resting graph options site dawn
  constructor
  · intro rests
    exact turns_open_of_run acts _ resting follows ((rests_story _).mpr rests)
  · intro turns
    exact (rests_story _).mp (run_resting acts _ resting follows turns).rests

/-- Two masters that include one file, and a third master. -/
def twoOwners : FileGraph where
  root := .ofText ""
  options := { extension := "ink" }
  files := [
    { path := .ofText "a.ink", includes := [.ofText "shared.ink"], masters := [.ofText "a.ink"] },
    { path := .ofText "b.ink", includes := [.ofText "shared.ink"], masters := [.ofText "b.ink"] },
    { path := .ofText "shared.ink", parents := [.ofText "a.ink", .ofText "b.ink"],
      masters := [.ofText "a.ink", .ofText "b.ink"] },
    { path := .ofText "x.ink", masters := [.ofText "x.ink"] }]

/-- Their files, which are empty. -/
def twoOwnersSite : Sandbox where
  disk := (twoOwners.paths).foldl (fun disk p => disk.addFile p .empty) .empty

/-- A compile is out when the stories are to be used, and then both owners are asked for. -/
def twoOwnersRun : List (Act Sandbox) :=
  [.compileFile (.ofText "x.ink") false, .tryRestricted, .compileFile (.ofText "shared.ink") true]

/-- The second owner is compiled although the wait for the first led into the restricted mode. -/
theorem two_owners_break_rest :
    Throughout Follows twoOwnersRun (fresh twoOwners {} twoOwnersSite 0) ∧
      ¬ RestsWhileRestricted ((fresh twoOwners {} twoOwnersSite 0).run twoOwnersRun).trace ∧
      ¬ Throughout TurnsOpen twoOwnersRun (fresh twoOwners {} twoOwnersSite 0) := by
  have follows : Throughout Follows twoOwnersRun (fresh twoOwners {} twoOwnersSite 0) :=
    ⟨trivial, trivial, trivial, trivial⟩
  have broken :
      ¬ RestsWhileRestricted ((fresh twoOwners {} twoOwnersSite 0).run twoOwnersRun).trace := by
    decide +kernel
  refine ⟨follows, broken, fun turns => ?_⟩
  exact broken ((run_rests_iff twoOwners {} twoOwnersSite 0 twoOwnersRun follows).mpr turns)

end Engine

end StoryBuild
