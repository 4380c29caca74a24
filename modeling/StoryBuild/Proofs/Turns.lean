import StoryBuild.Proofs.Calls

namespace StoryBuild

/-- Whether a happening reports the end of a compile or of a batch past the looks of the engine. -/
def Act.isReport {σ : Type} : Act σ → Bool
  | .workerFinished _ _ _ => true
  | .queueDrained _ => true
  | _ => false

namespace Engine

variable {σ : Type} [Workshop σ]

/-- One turn of an engine. -/
inductive Turn : Engine σ → Engine σ → Prop where
  | aside {e d : Engine σ} (same : d.core = e.core) : Turn e d
  | submit (e : Engine σ) (master : Path) (immediate : Bool) (now : Nat) :
      Turn e (e.submit master immediate now).2
  | drain (e : Engine σ) (now : Nat) : Turn e (e.drain now).2
  | look (e : Engine σ) (now : Nat) : Turn e (e.pollAt now).2
  | promote (e : Engine σ) (now : Nat) : Turn e (e.promote now)
  | mode (e : Engine σ) (m : Mode) : Turn e (e.changeMode m)
  | cancel (e : Engine σ) : Turn e e.cancelAll.2
  | stop (e : Engine σ) : Turn e e.cancelWorker

/-- Any number of turns. -/
abbrev Turns : Engine σ → Engine σ → Prop :=
  Relation.ReflTransGen Turn

theorem Turns.aside {e d : Engine σ} (same : d.core = e.core) : e.Turns d :=
  .single (.aside same)

/-- What one turn preserves, any number of turns preserve. -/
theorem turns_preserve {P : Engine σ → Prop} (one : ∀ {e d}, Turn e d → P e → P d)
    {e d : Engine σ} (h : e.Turns d) (he : P e) : P d := by
  induction h with
  | refl => exact he
  | tail _ turn ih => exact one turn ih

theorem breatheAndPoll_turns (e : Engine σ) : e.Turns e.breatheAndPoll :=
  (Turns.aside e.breathe_core).tail (.look _ _)

theorem enqueueAt_turns (e : Engine σ) (master : Path) (immediate : Bool) (now : Nat) :
    e.Turns (e.enqueueAt master immediate now).2 :=
  enqueueAt_preserves (P := e.Turns) (fun h => h.trans (breatheAndPoll_turns _))
    (fun h => h.tail (.aside (passTime_core _))) (.single (.submit ..))

theorem parts_turns (e : Engine σ) : PartsKeep e.Turns where
  read _ _ h := h.tail (.aside rfl)
  log lines h := h.tail (.aside (logAll_core _ lines))
  warn message h := h.tail (.aside (warn_core _ message))
  park master h := h.tail (.aside (park_core _ master))
  persist h := h.tail (.aside (persist_core _))
  enqueue {d} master _ h := h.trans (d.enqueueAt_turns master false d.clock)

theorem exitRestricted_turns (e : Engine σ) (now : Nat) : e.Turns (e.exitRestricted now) := by
  unfold exitRestricted
  split
  next => exact .refl
  next => exact .tail (.single (.mode e .editing)) (.promote _ now)

/-- The one lemma about what can happen: whatever is no report is a chain of turns. -/
theorem act_turns (e : Engine σ) {a : Act σ} (own : a.isReport = false) : e.Turns (e.act a) := by
  cases a with
  | enqueue master immediate now => exact e.enqueueAt_turns master immediate now
  | drainQueue now => exact .single (.drain e now)
  | poll now => exact .single (.look e now)
  | workerFinished => cases own
  | queueDrained => cases own
  | tryRestricted =>
    simp only [act, tryRestricted]
    split
    next => exact .aside (tell_core { e with deferredEntry := true } .deferred)
    next => exact .single (.mode e .restricted)
  | exitRestricted now => exact e.exitRestricted_turns now
  | setMode mode now =>
    cases mode with
    | editing => exact e.exitRestricted_turns now
    | restricted => exact .single (.mode e .restricted)
  | sourceChanged p => exact e.parts_turns.sourceChanged p .refl
  | compileAll force => exact e.parts_turns.compileAll force .refl
  | compileFile p immediate =>
    refine e.parts_turns.compileFile (fun {d} master h => ?_) p .refl
    exact h.trans (d.enqueueAt_turns master immediate d.clock)
  | cancelAll => exact .single (.cancel e)
  | shutdown => exact .single (.stop e)
  | rebuildGraph => exact .aside e.rebuildGraph_core
  | rebuildIfRequired => exact .aside e.rebuildIfRequired_core
  | restore s => exact e.parts_turns.restore s .refl
  | loadAndRestore => exact e.parts_turns.loadAndRestore .refl
  | siteChanged site => exact .aside rfl
  | workerTurn state =>
    refine .aside ?_
    simp only [act, core, Option.map_map]
    rfl
  | release master => exact .aside (e.release_core master)
  | timePasses millis => exact .aside rfl

theorem run_turns (e : Engine σ) (acts : List (Act σ)) (own : ∀ a ∈ acts, a.isReport = false) :
    e.Turns (e.run acts) :=
  run_preserves (P := e.Turns) (fun a ha e' h => h.trans (e'.act_turns (own a ha))) .refl

end Engine

end StoryBuild
