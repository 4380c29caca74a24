import StoryBuild.Proofs.Calls

namespace StoryBuild

/-- What a run shows to the outside. -/
inductive Sign where
  | host (e : HostEvent)
  /-- The compiler was entered for a job. -/
  | called (job : Nat) (master : Path)
  /-- A batch ended. -/
  | drained (s : Summary)
  /-- Everything was called off. -/
  | cancelled

/-- The sign that an event is. No event says that everything was called off. -/
def Sign.of? : Event → Option Sign
  | .host e => some (.host e)
  | .called job master => some (.called job master)
  | .drained _ s => some (.drained s)
  | _ => none

/-- How an engine stands towards its host. -/
structure Footing where
  /-- Whether a batch is outstanding. -/
  busy : Bool
  suspended : Bool
  /-- Whether the host waits for the restricted mode. -/
  deferred : Bool
  /-- The signs so far, in order. -/
  heard : List Sign

namespace Footing

/-- What is heard when a batch ends. -/
def farewell (f : Footing) (s : Summary) : List Sign :=
  .drained s :: ((if f.suspended then [.host .release] else []) ++
    .host (.stackCompleted s) ::
      if f.deferred && !s.hasErrors then [.host .enterRestricted] else [])

/-- What is heard when everything is called off but for a part of the batch that may be left. -/
def relief (f : Footing) (left : Bool) : List Sign :=
  if f.suspended && !left then [.host .release] else []

/-- One step of a footing. -/
inductive Step : Footing → Footing → Prop where
  | suspend {f : Footing} (idle : f.busy = false) (free : f.suspended = false) :
      Step f { f with busy := true, suspended := true, heard := f.heard ++ [.host .suspend] }
  | join {f : Footing} (announced : f.busy = true ∨ f.suspended = true) :
      Step f { f with busy := true }
  | call {f : Footing} (job : Nat) (master : Path) (busy : f.busy = true) :
      Step f { f with heard := f.heard ++ [.called job master] }
  | defer {f : Footing} (busy : f.busy = true) :
      Step f { f with deferred := true, heard := f.heard ++ [.host .deferred] }
  | drain {f : Footing} (s : Summary) (busy : f.busy = true) :
      Step f ⟨false, false, false, f.heard ++ f.farewell s⟩
  | cancel {f : Footing} (left : Bool) (rest : left = true → f.busy = true) :
      Step f ⟨left, f.suspended && left, false, f.heard ++ .cancelled :: f.relief left⟩

/-- Any number of steps. -/
abbrev Steps : Footing → Footing → Prop :=
  Relation.ReflTransGen Step

end Footing

namespace Engine

variable {σ : Type}

/-- The signs of the trace, in order. -/
def signs (e : Engine σ) : List Sign :=
  (e.trace.filterMap Sign.of?).reverse

/-- How the engine stands towards its host. -/
def footing (e : Engine σ) : Footing :=
  ⟨e.isBusy, e.suspended, e.deferredEntry, e.signs⟩

open Relation (ReflTransGen)

theorem note_footing {e : Engine σ} {event : Event} (h : Sign.of? event = none) :
    (e.note event).footing = e.footing := by
  have same : (e.note event).signs = e.signs := by simp [signs, note, h]
  simp only [footing, same]
  rfl

theorem noteAll_footing {e : Engine σ} {events : List Event}
    (h : ∀ event ∈ events, Sign.of? event = none) : (e.noteAll events).footing = e.footing := by
  have none_ : events.reverse.filterMap Sign.of? = [] :=
    List.filterMap_eq_nil_iff.mpr fun event he => h event (List.mem_reverse.mp he)
  have same : (e.noteAll events).signs = e.signs := by simp [signs, noteAll, none_]
  simp only [footing, same]
  rfl

@[simp] theorem warn_footing (e : Engine σ) (message : String) :
    (e.warn message).footing = e.footing :=
  note_footing rfl

@[simp] theorem error_footing (e : Engine σ) (message : String) :
    (e.error message).footing = e.footing :=
  note_footing rfl

@[simp] theorem logAll_footing (e : Engine σ) (lines : List LogLine) :
    (e.logAll lines).footing = e.footing :=
  noteAll_footing (by simp [Sign.of?])

@[simp] theorem changeMode_footing (e : Engine σ) (m : Mode) :
    (e.changeMode m).footing = e.footing :=
  note_footing (e := { e with mode := m }) rfl

@[simp] theorem persist_footing [Storage σ] (e : Engine σ) : e.persist.footing = e.footing := by
  unfold persist
  split
  next => rfl
  next p _ =>
    dsimp only
    split
    next site _ => exact note_footing (e := { e with site }) rfl
    next site _ => exact warn_footing { e with site } _

@[simp] theorem cancelWorker_footing (e : Engine σ) : e.cancelWorker.footing = e.footing := by
  unfold cancelWorker
  split
  next => rfl
  next w _ =>
    have fired : ({ e with inFlight := none }.note (.fired w.job)).footing = e.footing :=
      note_footing (e := { e with inFlight := none }) rfl
    dsimp only
    split
    next => exact fired
    next => exact (note_footing rfl).trans fired
    next => exact fired

theorem cancelJob_footing (e : Engine σ) (j : Job) : (e.cancelJob j).footing = e.footing := by
  unfold cancelJob
  split
  next => exact e.cancelWorker_footing
  next => rfl

@[simp] theorem updateJob_footing (e : Engine σ) (id : Nat) (f : Job → Job) :
    (e.updateJob id f).footing = e.footing := by
  simp [footing, isBusy, updateJob, signs]

@[simp] theorem passTime_footing (e : Engine σ) : e.passTime.footing = e.footing := by
  unfold passTime
  split
  next => rfl
  next => split <;> rfl

@[simp] theorem breathe_footing [Workshop σ] (e : Engine σ) : e.breathe.footing = e.footing := by
  unfold breathe
  split <;> rfl

theorem resume_footing [Storage σ] (e : Engine σ) (stray : Bool) (w : Worker) :
    (e.resume stray w).2.footing = e.footing := by
  unfold resume
  split
  next =>
    split
    next => rfl
    next => rfl
    next => exact note_footing rfl
  next => rfl

theorem resumeStrays_footing [Storage σ] (chosen : Worker → Bool) (strays : List Worker)
    (e : Engine σ) : (e.resumeStrays chosen strays).2.footing = e.footing := by
  induction strays generalizing e with
  | nil => rfl
  | cons w rest ih =>
    unfold resumeStrays
    split
    next => exact (ih _).trans (e.resume_footing true w)
    next => exact ih e

theorem release_footing [Storage σ] (e : Engine σ) (master : Option Path) :
    (e.release master).footing = e.footing := by
  unfold release
  dsimp only
  generalize hs : e.resumeStrays _ e.strays = freed
  have same : { freed.2 with strays := freed.1 }.footing = e.footing := by
    rw [← resumeStrays_footing _ e.strays e, hs]
    rfl
  split
  next w _ =>
    split
    next => exact (resume_footing { freed.2 with strays := freed.1 } false w).trans same
    next => exact same
  next => exact same

theorem noteRefusal_footing (e : Engine σ) (refusal : RequestError) :
    (e.noteRefusal refusal).footing = e.footing := by
  cases refusal with
  | alreadyQueued p => exact e.warn_footing _
  | _ => rfl

section Jobs

variable [Workshop σ]

theorem finishJob_footing (e : Engine σ) (id : Nat) (o : Outcome) (now : Nat) :
    (e.finishJob id o now).footing = e.footing := by
  unfold finishJob
  split
  next => rfl
  next =>
    dsimp only
    rw [persist_footing]
    split
    next => rw [warn_footing, updateJob_footing]
    next => rw [updateJob_footing]

omit [Workshop σ] in
theorem enter_footing (e : Engine σ) (r : Request) :
    (e.enter r).footing =
      { e.footing with heard := e.footing.heard ++ [.called r.job r.master] } := by
  simp [enter, footing, signs, note, Sign.of?, isBusy]

theorem runHere_footing (e : Engine σ) (r : Request) :
    (e.runHere r).2.footing =
      { e.footing with heard := e.footing.heard ++ [.called r.job r.master] } := by
  have entered := enter_footing (e.note (.begun r.job)) r
  rw [note_footing rfl] at entered
  rw [← entered]
  unfold runHere
  dsimp only
  split <;> exact note_footing rfl

omit [Workshop σ] in
theorem loseWorker_footing (e : Engine σ) (r : Request) : (e.loseWorker r).footing = e.footing := by
  have begun : (e.note (.begun r.job)).footing = e.footing := note_footing rfl
  exact begun

theorem sendWorker_footing (e : Engine σ) (r : Request) :
    (e.sendWorker r).footing =
      { e.footing with heard := e.footing.heard ++ [.called r.job r.master] } := by
  have entered := enter_footing (e.note (.begun r.job)) r
  rw [note_footing rfl] at entered
  exact entered

/-- A job is started only where there is one. -/
theorem startJob_footing_steps (e : Engine σ) (j : Job) (now : Nat)
    (busy : e.footing.busy = true) : Footing.Steps e.footing (e.startJob j now).footing := by
  have begun : (e.markStarted j now).footing = e.footing :=
    (note_footing rfl).trans (e.updateJob_footing _ _)
  have called (r : Request) : Footing.Steps e.footing
      { e.footing with heard := e.footing.heard ++ [.called r.job r.master] } :=
    .single (.call r.job r.master busy)
  refine startJob_cases (P := fun d => Footing.Steps e.footing d.footing) e j now
    (fun _ _ => ?_) (fun r _ _ => ?_) (fun r _ _ _ => ?_) (fun r _ _ _ => ?_)
  · rw [finishJob_footing, begun]
  · rw [finishJob_footing, runHere_footing, begun]
    exact called r
  · rw [persist_footing, loseWorker_footing, begun]
  · rw [persist_footing, sendWorker_footing, begun]
    exact called r

omit [Workshop σ] in
theorem busy_of_find {e : Engine σ} {test : Job → Bool} {j : Job}
    (h : e.jobs.find? test = some j) : e.footing.busy = true := by
  have hj : j ∈ e.jobs := List.mem_of_find?_eq_some h
  have some_ : e.jobs.isEmpty = false := by
    cases hs : e.jobs with
    | nil => simp [hs] at hj
    | cons => rfl
  simp [footing, isBusy, some_]

theorem drain_footing_steps (e : Engine σ) (now : Nat) :
    Footing.Steps e.footing (e.drain now).2.footing :=
  drain_preserves (P := fun d => Footing.Steps e.footing d.footing)
    (fun {d j} _ _ first h => h.trans (startJob_footing_steps d j now (busy_of_find first))) .refl

/-- The first job of a batch announces it; a further one joins it. -/
theorem addJob_footing_step (e : Engine σ) (master : Path) (immediate : Bool) :
    Footing.Step e.footing (e.addJob master immediate).footing := by
  have joined (d : Engine σ) (j : Job) (pending : Pending) :
      (({ d with
          jobs := d.jobs ++ [j]
          nextId := d.nextId + 1
          pending }.note (.queued j.id master)).persist).footing =
        { d.footing with busy := true } := by
    rw [persist_footing, note_footing rfl]
    simp [footing, isBusy, signs]
  unfold addJob
  dsimp only
  rw [joined]
  unfold suspendHost
  split
  next first =>
    simp only [Bool.and_eq_true, Bool.not_eq_true'] at first
    have told : { ({ e.tell .suspend with suspended := true } : Engine σ).footing with
          busy := true } =
        { e.footing with
          busy := true
          suspended := true
          heard := e.footing.heard ++ [.host .suspend] } := by
      simp [footing, signs, tell, note, Sign.of?]
    rw [told]
    exact .suspend first.1 first.2
  next further =>
    refine .join ?_
    simp only [footing]
    cases hb : e.isBusy <;> cases hs : e.suspended <;> simp_all

theorem submit_footing_steps (e : Engine σ) (master : Path) (immediate : Bool) (now : Nat) :
    Footing.Steps e.footing (e.submit master immediate now).2.footing := by
  unfold submit
  split
  next refusal _ =>
    rw [noteRefusal_footing]
  next => exact .head (e.addJob_footing_step master immediate) (drain_footing_steps _ now)

theorem promote_footing_steps (e : Engine σ) (now : Nat) :
    Footing.Steps e.footing (e.promote now).footing :=
  promote_preserves (P := fun d => Footing.Steps e.footing d.footing) (fun _ h => h)
    (fun _ h => by rwa [note_footing rfl])
    (fun {d} master h => h.trans (d.submit_footing_steps master false now))
    (fun h => by rwa [persist_footing]) .refl

end Jobs

end Engine

end StoryBuild
