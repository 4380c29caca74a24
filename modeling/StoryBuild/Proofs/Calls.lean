import StoryBuild.Engine.Run
import StoryBuild.Proofs.Batches

namespace StoryBuild

/-- A compile that was not told to stop does not stop. -/
theorem Script.play_goes_on {σ : Type} [Storage σ] (s : σ) (r : Request) (here : Bool)
    (before : List String) (script : Script) :
    script.play s r here false before ≠ .stopped := by
  induction script generalizing before with
  | hang lines deaf next ih =>
    unfold Script.play
    split
    next => exact ih _
    next => simp
  | _ => simp [Script.play]

namespace Engine

variable {σ : Type} [Workshop σ] {mayQueue mayRestrict : Core → Prop}

theorem resume_core (e : Engine σ) (stray : Bool) (w : Worker) :
    (e.resume stray w).2.core = e.core := by
  unfold resume
  split
  next =>
    split
    next => rfl
    next => rfl
    next => exact note_core rfl
  next => rfl

theorem resume_keeps (e : Engine σ) (w : Worker) :
    (e.resume false w).1.map Worker.job = some w.job := by
  unfold resume
  split
  next lines _ next _ =>
    split
    next => rfl
    next => rfl
    next h => exact absurd h (Script.play_goes_on _ _ _ _ _)
  next => rfl

theorem resumeStrays_core (chosen : Worker → Bool) (strays : List Worker) (e : Engine σ) :
    (e.resumeStrays chosen strays).2.core = e.core := by
  induction strays generalizing e with
  | nil => rfl
  | cons w rest ih =>
    unfold resumeStrays
    split
    next => exact (ih _).trans (e.resume_core true w)
    next => exact ih e

theorem release_core (e : Engine σ) (master : Option Path) : (e.release master).core = e.core := by
  unfold release
  dsimp only
  generalize hs : e.resumeStrays _ e.strays = freed
  have same : { freed.2 with strays := freed.1 }.core = e.core := by
    rw [← resumeStrays_core _ e.strays e, hs]
    rfl
  split
  next w h =>
    split
    next =>
      have kept := resume_keeps { freed.2 with strays := freed.1 } w
      have rest := resume_core { freed.2 with strays := freed.1 } false w
      have out : e.core.worker = some w.job := by
        rw [← same]
        simp [core, h]
      calc _ = { ({ freed.2 with strays := freed.1 }.resume false w).2.core with
            worker := ({ freed.2 with strays := freed.1 }.resume false w).1.map Worker.job } := rfl
        _ = { e.core with worker := some w.job } := by rw [kept, rest, same]
        _ = e.core := by rw [← out]
    next => exact same
  next => exact same

omit [Workshop σ] in
theorem park_core (e : Engine σ) (master : Path) : (e.park master).2.core = e.core := rfl

theorem park_persist_core (e : Engine σ) (master : Path) :
    (if (e.park master).1 then (e.park master).2.persist else (e.park master).2).core = e.core := by
  split
  next => exact (persist_core _).trans (e.park_core master)
  next => exact e.park_core master

omit [Workshop σ] in
theorem parkAll_core (e : Engine σ) (masters : List Path) :
    (e.parkAll masters).2.core = e.core := by
  unfold parkAll
  generalize false = parked
  induction masters generalizing e parked with
  | nil => rfl
  | cons p rest ih => exact ih (e.park p).2 _

omit [Workshop σ] in
theorem editing_of_not_restricted {e : Engine σ} (h : ¬ (e.mode == .restricted) = true) :
    e.core.mode = .editing := by
  rw [core_mode]
  cases hm : e.mode with
  | editing => rfl
  | restricted => exact absurd (by rw [hm]; rfl) h

section Parts

variable {P : Engine σ → Prop} {e : Engine σ}

/-- What the parts of a request for many masters preserve. Jobs are queued one by one, and only
while sources are being edited. -/
structure PartsKeep (P : Engine σ → Prop) : Prop where
  read : ∀ {d : Engine σ} (graph : FileGraph) (site : σ), P d → P { d with graph, site }
  log : ∀ {d : Engine σ} (lines : List LogLine), P d → P (d.logAll lines)
  warn : ∀ {d : Engine σ} (message : String), P d → P (d.warn message)
  park : ∀ {d : Engine σ} (master : Path), P d → P (d.park master).2
  persist : ∀ {d : Engine σ}, P d → P d.persist
  enqueue : ∀ {d : Engine σ} (master : Path), d.mode = .editing → P d →
    P (d.enqueue master false).2

namespace PartsKeep

variable (parts : PartsKeep P)

include parts

theorem persistIf (changed : Bool) (h : P e) : P (if changed then e.persist else e) := by
  split
  next => exact parts.persist h
  next => exact h

theorem parkAll (masters : List Path) (h : P e) : P (e.parkAll masters).2 := by
  unfold Engine.parkAll
  generalize false = parked
  induction masters generalizing e parked with
  | nil => exact h
  | cons p rest ih => exact ih (parts.park p h) _

theorem reactTo (parked : Bool) (master : Path) (h : P e) :
    P (reactTo (parked, e) master).2 := by
  unfold Engine.reactTo
  dsimp only
  split
  next => exact h
  next =>
    split
    next => exact parts.park master h
    next open_ =>
      simp only [Bool.or_eq_true, not_or] at open_
      have asked := parts.enqueue master (editing_of_not_restricted open_.1) h
      split
      next answer => rwa [answer] at asked
      next answer =>
        rw [answer] at asked
        exact parts.warn _ asked

theorem reactAll (masters : List Path) (parked : Bool) (h : P e) :
    P (masters.foldl Engine.reactTo (parked, e)).2 := by
  induction masters generalizing e parked with
  | nil => exact h
  | cons m rest ih => exact ih _ (parts.reactTo parked m h)

theorem sourceChanged (p : Path) (h : P e) : P (e.sourceChanged p).2 := by
  have read := parts.log (e.graph.refresh e.site p).2.log
    (parts.read (e.graph.refresh e.site p).2.graph (e.graph.refresh e.site p).2.storage h)
  unfold Engine.sourceChanged
  dsimp only
  split
  next => exact parts.persistIf _ (parts.reactAll _ false read)
  next => exact read

theorem compileEach (masters : List Path) (h : P e) : P (compileEach masters e).2 := by
  induction masters generalizing e with
  | nil => exact h
  | cons p rest ih =>
    unfold Engine.compileEach
    split
    next => exact ih h
    next =>
      split
      next => exact ih (parts.persistIf _ (parts.park p h))
      next open_ =>
        have asked := parts.enqueue p (editing_of_not_restricted open_) h
        split
        next answer => rwa [answer] at asked
        next answer =>
          rw [answer] at asked
          exact ih asked

theorem compileAll (force : Bool) (h : P e) : P (e.compileAll force).2 := by
  have looked : P (e.targets force).2 := by
    unfold targets
    split
    next => exact h
    next => exact parts.read e.graph _ h
  exact parts.compileEach _ looked

/-- The mode is looked at once, before the first owner of a file. -/
theorem compileOwners {immediate : Bool}
    (asked : ∀ {d : Engine σ} (master : Path), P d → P (d.enqueue master immediate).2)
    (masters : List Path) (h : P e) : P (compileOwners immediate masters e).2 := by
  induction masters generalizing e with
  | nil => exact h
  | cons p rest ih =>
    have one := asked p h
    unfold Engine.compileOwners
    split
    next answer =>
      rw [answer] at one
      exact ih one
    next answer =>
      rw [answer] at one
      exact ih (parts.persistIf _ (parts.park _ one))
    next answer => rwa [answer] at one

theorem compileFile {immediate : Bool}
    (asked : ∀ {d : Engine σ} (master : Path), P d → P (d.enqueue master immediate).2)
    (p : Path) (h : P e) : P (e.compileFile p immediate).2 := by
  unfold Engine.compileFile
  split
  next => exact h
  next f _ =>
    dsimp only
    generalize (if f.isMaster then [p] else f.masters) = masters
    split
    next => exact h
    next =>
      split
      next => exact parts.persistIf _ (parts.parkAll masters h)
      next => exact parts.compileOwners asked masters h

theorem restoreOne (ids : List Nat) (raw : String) (h : P e) :
    P (restoreOne (ids, e) raw).2 := by
  unfold Engine.restoreOne
  dsimp only
  split
  next => exact parts.warn _ h
  next =>
    split
    next => exact parts.park _ h
    next open_ =>
      have asked := parts.enqueue (.ofText raw) (editing_of_not_restricted open_) h
      split
      next answer => rwa [answer] at asked
      next answer =>
        rw [answer] at asked
        exact parts.warn _ asked

theorem restore (s : Snapshot) (h : P e) : P (e.restore s).2 := by
  have loop (raws : List String) (ids : List Nat) {e : Engine σ} (h : P e) :
      P (raws.foldl Engine.restoreOne (ids, e)).2 := by
    induction raws generalizing e ids with
    | nil => exact h
    | cons raw rest ih => exact ih _ (parts.restoreOne ids raw h)
  unfold Engine.restore
  split
  next => exact h
  next => exact parts.persist (loop s.resume [] h)

theorem loadAndRestore (h : P e) : P e.loadAndRestore.2 := by
  unfold Engine.loadAndRestore
  split
  next => exact h
  next =>
    split
    next => exact h
    next => exact h
    next => exact h
    next s _ => exact parts.restore s h

end PartsKeep

end Parts

section Guarded

variable (mayQ : ∀ c : Core, c.mode = .editing → mayQueue c)
  (mayR : ∀ c : Core, c.jobs = [] → c.abandoned = [] → mayRestrict c)

include mayQ mayR

theorem parts_steps (e : Engine σ) :
    PartsKeep fun d : Engine σ => Core.Steps mayQueue mayRestrict e.core d.core where
  read _ _ h := h
  log lines h := by rwa [logAll_core]
  warn message h := by rwa [warn_core]
  park _ h := h
  persist h := by rwa [persist_core]
  enqueue {d} _ editing h :=
    h.trans (enqueueAt_steps mayQ mayR false d.clock fun _ => mayQ _ editing)

omit mayR in
theorem exitRestricted_steps (e : Engine σ) (now : Nat) :
    Core.Steps mayQueue mayRestrict e.core (e.exitRestricted now).core := by
  unfold exitRestricted
  split
  next => exact .refl
  next =>
    have edited : Core.Step mayQueue mayRestrict e.core (e.changeMode .editing).core := .edit
    exact .head edited (promote_steps now rfl mayQ)

end Guarded

/-- Whether every master that gets its turn, and is accepted, finds the engine as it has to be. -/
def TurnsIn (ok : Engine σ → Prop) (immediate : Bool) : List Path → Engine σ → Prop
  | [], _ => True
  | p :: rest, e =>
    (e.refusal? p = none → ok e) ∧
      match e.enqueue p immediate with
      | (.ok _, e) => TurnsIn ok immediate rest e
      | (.error (.alreadyQueued master), e) =>
        TurnsIn ok immediate rest (if (e.park master).1 then (e.park master).2.persist
          else (e.park master).2)
      | (.error _, _) => True

theorem compileOwners_steps (mayQ : ∀ c : Core, c.mode = .editing → mayQueue c)
    (mayR : ∀ c : Core, c.jobs = [] → c.abandoned = [] → mayRestrict c) (immediate : Bool)
    (masters : List Path) (e : Engine σ)
    (turns : TurnsIn (fun e => mayQueue e.core) immediate masters e) :
    Core.Steps mayQueue mayRestrict e.core (compileOwners immediate masters e).2.core := by
  induction masters generalizing e with
  | nil => exact .refl
  | cons p rest ih =>
    obtain ⟨may, turns⟩ := turns
    have asked : Core.Steps mayQueue mayRestrict e.core (e.enqueue p immediate).2.core :=
      enqueueAt_steps mayQ mayR immediate e.clock may
    unfold compileOwners
    split
    next h =>
      rw [h] at asked turns
      exact asked.trans (ih _ turns)
    next master after h =>
      rw [h] at asked turns
      dsimp only at asked turns ⊢
      refine asked.trans ?_
      rw [← after.park_persist_core master]
      exact ih _ turns
    next h => rwa [h] at asked

/-- The turns of a request for the masters of a file; it has none in the restricted mode. -/
def FileTurnsIn (ok : Engine σ → Prop) (e : Engine σ) (p : Path) (immediate : Bool) : Prop :=
  match e.graph.file? p with
  | none => True
  | some f => e.mode ≠ .restricted →
    TurnsIn ok immediate (if f.isMaster then [p] else f.masters) e

theorem compileFile_steps (mayQ : ∀ c : Core, c.mode = .editing → mayQueue c)
    (mayR : ∀ c : Core, c.jobs = [] → c.abandoned = [] → mayRestrict c) {e : Engine σ} {p : Path}
    {immediate : Bool} (turns : FileTurnsIn (fun e => mayQueue e.core) e p immediate) :
    Core.Steps mayQueue mayRestrict e.core (e.compileFile p immediate).2.core := by
  unfold FileTurnsIn at turns
  unfold compileFile
  split
  next => exact .refl
  next f h =>
    rw [h] at turns
    dsimp only at turns ⊢
    generalize (if f.isMaster then [p] else f.masters) = masters at turns ⊢
    split
    next => exact .refl
    next =>
      split
      next =>
        dsimp only
        split
        next => rw [persist_core, parkAll_core]
        next => rw [parkAll_core]
      next open_ =>
        exact compileOwners_steps mayQ mayR immediate _ e
          (turns fun restricted => open_ (by rw [restricted]; rfl))

theorem cancelAll_core (e : Engine σ) :
    e.cancelAll.2.core =
      { e.cancelWorker.core with
        jobs := e.jobs.filter Job.isComplete
        story := ((e.jobs.filter fun k => !k.isComplete).map fun k =>
          Event.dropped k.id).reverse ++ e.cancelWorker.story } := by
  have noted (d : Engine σ) (dropped : List Job) :
      (d.noteAll (dropped.map fun k => .dropped k.id)).core =
        { d.core with
          story := (dropped.map fun k => Event.dropped k.id).reverse ++ d.story } := by
    have story : (d.noteAll (dropped.map fun k => .dropped k.id)).story =
        (dropped.map fun k => Event.dropped k.id).reverse ++ d.story := by
      rw [noteAll_story, List.filter_eq_self.mpr]
      simp [Event.isStory]
    simp only [core, story]
    rfl
  unfold cancelAll
  dsimp only
  rw [persist_core]
  have same (d : Engine σ) : (if d.isBusy then d else d.releaseHost).core = d.core := by
    split
    next => rfl
    next => exact d.releaseHost_core
  rw [same, noted, cancelWorker_jobs]
  rfl

theorem cancelAll_steps (e : Engine σ) :
    Core.Steps mayQueue mayRestrict e.core e.cancelAll.2.core := by
  rw [cancelAll_core, ← cancelWorker_jobs e]
  exact e.cancelWorker_steps.tail .drop

theorem rebuildGraph_core (e : Engine σ) : e.rebuildGraph.2.core = e.core := by
  unfold rebuildGraph
  split
  next => rfl
  next =>
    dsimp only
    split <;> exact logAll_core _ _

theorem rebuildIfRequired_core (e : Engine σ) : e.rebuildIfRequired.2.core = e.core := by
  unfold rebuildIfRequired
  have same := e.rebuildGraph_core
  split
  next => split <;> simp_all
  next => rfl

/-- When a happening may queue jobs or enter the restricted mode: a request by name needs leave to
queue, the host needs leave to restrict, and the turns of a request for a file need leave each. -/
def Permits (mayQueue mayRestrict : Core → Prop) (e : Engine σ) : Act σ → Prop
  | .enqueue master _ _ => e.refusal? master = none → mayQueue e.core
  | .setMode .restricted _ => mayRestrict e.core
  | .compileFile p immediate => FileTurnsIn (fun e => mayQueue e.core) e p immediate
  | _ => True

/-- The one lemma about what can happen: it moves the core by permitted steps. -/
theorem act_steps (mayQ : ∀ c : Core, c.mode = .editing → mayQueue c)
    (mayR : ∀ c : Core, c.jobs = [] → c.abandoned = [] → mayRestrict c) {e : Engine σ} {a : Act σ}
    (permitted : e.Permits mayQueue mayRestrict a) :
    Core.Steps mayQueue mayRestrict e.core (e.act a).core := by
  cases a with
  | enqueue master immediate now => exact enqueueAt_steps mayQ mayR immediate now permitted
  | drainQueue now => exact drain_steps e now
  | poll now => exact pollAt_steps mayQ mayR e now
  | workerFinished id o now => exact finishJob_steps e id o now
  | queueDrained now => exact closeBatch_steps e now mayQ mayR
  | tryRestricted =>
    simp only [act, tryRestricted]
    split
    next => exact (tell_core { e with deferredEntry := true } .deferred) ▸ .refl
    next idle =>
      simp only [isBusy, Bool.or_eq_true, not_or, Bool.not_eq_true, Bool.not_eq_false',
        List.isEmpty_iff] at idle
      exact .single (.restrict (mayR _ idle.1 idle.2))
  | exitRestricted now => exact exitRestricted_steps mayQ e now
  | setMode mode now =>
    cases mode with
    | editing => exact exitRestricted_steps mayQ e now
    | restricted => exact .single (.restrict permitted)
  | sourceChanged p => exact (parts_steps mayQ mayR e).sourceChanged p .refl
  | compileAll force => exact (parts_steps mayQ mayR e).compileAll force .refl
  | compileFile p immediate => exact compileFile_steps mayQ mayR permitted
  | cancelAll => exact cancelAll_steps e
  | shutdown => exact cancelWorker_steps e
  | rebuildGraph => exact e.rebuildGraph_core ▸ .refl
  | rebuildIfRequired => exact e.rebuildIfRequired_core ▸ .refl
  | restore s => exact (parts_steps mayQ mayR e).restore s .refl
  | loadAndRestore => exact (parts_steps mayQ mayR e).loadAndRestore .refl
  | siteChanged site => exact .refl
  | workerTurn state =>
    have same : (e.act (.workerTurn state)).core = e.core := by
      simp only [act, core, Option.map_map]
      rfl
    exact same ▸ .refl
  | release master => exact e.release_core master ▸ .refl
  | timePasses millis => exact .refl

theorem turns_in_free (immediate : Bool) (masters : List Path) (e : Engine σ) :
    TurnsIn (fun _ => True) immediate masters e := by
  induction masters generalizing e with
  | nil => trivial
  | cons p rest ih =>
    refine ⟨fun _ => trivial, ?_⟩
    split
    next => exact ih _
    next => exact ih _
    next => trivial

/-- Without conditions every happening is permitted. -/
theorem permits_free (e : Engine σ) (a : Act σ) : e.Permits (fun _ => True) (fun _ => True) a := by
  cases a with
  | enqueue => exact fun _ => trivial
  | compileFile p immediate =>
    simp only [Permits, FileTurnsIn]
    split
    next => trivial
    next => exact fun _ => turns_in_free immediate _ e
  | setMode mode => cases mode <;> trivial
  | _ => trivial

/-- The core of an engine after a happening. -/
theorem act_moves (e : Engine σ) (a : Act σ) : Core.Moves e.core (e.act a).core :=
  act_steps (fun _ _ => trivial) (fun _ _ _ => trivial) (e.permits_free a)

/-- What each happening of a run preserves, the run preserves. -/
theorem run_preserves {P : Engine σ → Prop} {acts : List (Act σ)} {e : Engine σ}
    (kept : ∀ a ∈ acts, ∀ {e : Engine σ}, P e → P (e.act a)) (h : P e) : P (e.run acts) :=
  acts.foldlRecOn act h fun _ h a ha => kept a ha h

/-- The core of an engine after a run. -/
theorem run_moves (e : Engine σ) (acts : List (Act σ)) : Core.Moves e.core (e.run acts).core :=
  run_preserves (P := (Core.Moves e.core ·.core)) (fun a _ _ h => h.trans (act_moves _ a)) .refl

omit [Workshop σ] in
@[simp] theorem fresh_story (graph : FileGraph) (options : EngineOptions) (site : σ) (dawn : Nat) :
    (fresh graph options site dawn).story = [] := rfl

end Engine

end StoryBuild
