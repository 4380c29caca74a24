import StoryBuild.Proofs.DeskFacts
import StoryBuild.Proofs.HostCalls
import StoryBuild.Proofs.HostRules
import StoryBuild.Proofs.RestrictedMode

namespace StoryBuild

/-- What the host is told by an event. -/
def Event.host? : Event → Option HostEvent
  | .host e => some e
  | _ => none

namespace Engine

variable {σ : Type}

/-- What the host was told, in order. -/
def hostTrace (e : Engine σ) : List HostEvent :=
  (e.trace.filterMap Event.host?).reverse

theorem hostPart_signs (e : Engine σ) : hostPart e.signs = e.hostTrace := by
  have same (event : Event) : (Sign.of? event).bind Sign.host? = event.host? := by
    cases event <;> rfl
  simp [hostPart, signs, hostTrace, List.filterMap_reverse, List.filterMap_filterMap, same]

variable [Workshop σ]

/-- The events of a happening, in order. -/
def news (e : Engine σ) (a : Act σ) : List Event :=
  ((e.act a).trace.take ((e.act a).trace.length - e.trace.length)).reverse

theorem act_trace (e : Engine σ) (a : Act σ) :
    (e.act a).trace = (e.news a).reverse ++ e.trace := by
  obtain ⟨new, grown⟩ := e.act_grows a
  simp [news, ← grown]

/-- The signs of a happening. A mark stands before those of calling everything off. -/
def account (e : Engine σ) (a : Act σ) : List Sign :=
  let told := (e.news a).filterMap Sign.of?
  match a with
  | .cancelAll => .cancelled :: told
  | _ => told

/-- The signs of a run, in order. -/
def history (e : Engine σ) : List (Act σ) → List Sign
  | [] => []
  | a :: rest => e.account a ++ (e.act a).history rest

theorem act_signs (e : Engine σ) (a : Act σ) :
    (e.act a).signs = e.signs ++ (e.news a).filterMap Sign.of? := by
  simp [signs, act_trace]

theorem account_told {a : Act σ} (e : Engine σ) (goes_on : a ≠ .cancelAll) :
    e.account a = (e.news a).filterMap Sign.of? := by
  cases a with
  | cancelAll => exact absurd rfl goes_on
  | _ => rfl

/-- Calling everything off releases the host with the last job of a batch, and that is all. -/
theorem account_cancelAll (e : Engine σ) :
    e.account .cancelAll = .cancelled :: e.footing.relief (e.act .cancelAll).isBusy := by
  have heard : (e.act .cancelAll).signs =
      e.signs ++ e.footing.relief (e.act .cancelAll).isBusy :=
    congrArg Footing.heard e.cancelAll_footing.2
  rw [act_signs] at heard
  exact congrArg _ (List.append_cancel_left heard)

theorem cancelAll_told {e : Engine σ} (held : e.suspended = e.isBusy) :
    hostPart (e.account .cancelAll) =
      if e.isBusy && !(e.act .cancelAll).isBusy then [.release] else [] := by
  have suspended : e.footing.suspended = e.isBusy := held
  rw [account_cancelAll, hostPart_cancelled, Footing.relief, suspended]
  split <;> rfl

theorem act_keeps {e : Engine σ} {heard : List Sign} (h : (e.footing.after heard).Keeps)
    {a : Act σ} (by_rule : a.endsBatch = false) :
    ((e.act a).footing.after (heard ++ e.account a)).Keeps := by
  by_cases goes_on : a = .cancelAll
  · subst goes_on
    -- The trace has no mark, so the step starts from the history.
    obtain ⟨rest, gone⟩ := e.cancelAll_footing
    have stepped := h.cancel _ rest
    rw [account_cancelAll]
    change (e.cancelAll.2.footing.after _).Keeps
    rw [gone]
    exact stepped
  · -- The steps of the trace are taken again behind the marks of the history.
    obtain ⟨new, grown, steps⟩ :=
      Footing.steps_after (e.act_footing_steps a by_rule goes_on)
    have told : e.account a = new := by
      rw [account_told e goes_on]
      exact List.append_cancel_left ((act_signs e a).symm.trans grown)
    rw [told]
    exact Footing.steps_keep (steps heard) h

theorem run_keeps {e : Engine σ} {heard : List Sign} (h : (e.footing.after heard).Keeps)
    {acts : List (Act σ)} (by_rule : ∀ a ∈ acts, a.endsBatch = false) :
    ((e.run acts).footing.after (heard ++ e.history acts)).Keeps := by
  induction acts generalizing e heard with
  | nil => simpa [history, run] using h
  | cons a rest ih =>
    have first := act_keeps h (by_rule a (by simp))
    have later := ih first fun b hb => by_rule b (List.mem_cons_of_mem _ hb)
    rw [history, ← List.append_assoc]
    exact later

theorem shown_unmarked (events : List Event) :
    (events.filterMap Sign.of?).filter (fun sign => !sign.isMark) = events.filterMap Sign.of? := by
  refine List.filter_eq_self.mpr fun sign shown => ?_
  obtain ⟨event, _, same⟩ := List.mem_filterMap.mp shown
  cases event <;> cases same <;> rfl

theorem account_unmarked (e : Engine σ) (a : Act σ) :
    (e.account a).filter (fun sign => !sign.isMark) = (e.news a).filterMap Sign.of? := by
  cases a with
  | cancelAll => exact shown_unmarked _
  | _ => exact shown_unmarked _

/-- Without its marks a history is what the trace shows. -/
theorem history_signs (e : Engine σ) (acts : List (Act σ)) :
    (e.run acts).signs = e.signs ++ (e.history acts).filter fun sign => !sign.isMark := by
  induction acts generalizing e with
  | nil => simp [history, run]
  | cons a rest ih =>
    change ((e.act a).run rest).signs = _
    rw [ih, act_signs, history, List.filter_append, account_unmarked, List.append_assoc]

theorem hostTrace_history (graph : FileGraph) (options : EngineOptions) (site : σ) (dawn : Nat)
    (acts : List (Act σ)) :
    ((fresh graph options site dawn).run acts).hostTrace =
      hostPart ((fresh graph options site dawn).history acts) := by
  rw [← hostPart_signs, history_signs, hostPart_append, hostPart_unmarked]
  rfl

/-- The protocol between an engine and its host over a run. -/
structure KeepsProtocol (start : Engine σ) (acts : List (Act σ)) : Prop where
  /-- The history is what the trace shows, with a mark wherever everything was called off. -/
  history : (start.history acts).filter (fun sign => !sign.isMark) = (start.run acts).signs
  /-- What the host was told begins a word of the protocol. -/
  word : ∃ w ∈ hostProtocol, (start.run acts).hostTrace <+: w
  /-- Calls, ends of batches, releases and reports fit their places. -/
  fits : AllFit (start.history acts)
  /-- Between any two happenings the host is held back, as the engine has it and as the host was
  told, exactly if a batch is outstanding. -/
  suspended : ∀ front, front <+: acts →
    (start.run front).suspended = (start.run front).isBusy ∧
      ((start.run front).isBusy = true ↔ HeldBack (start.history front))
  /-- Between any two happenings an entry into the restricted mode is deferred exactly if a batch is
  outstanding and a wish waits for it. -/
  deferred : ∀ front, front <+: acts → ((start.run front).deferredEntry = true ↔
    (start.run front).isBusy = true ∧ WishWaits (start.history front))
  /-- Calling everything off tells the host of a release if it ends a batch, and else nothing. -/
  cancelled : ∀ front, front ++ [.cancelAll] <+: acts →
    hostPart ((start.run front).account .cancelAll) =
      if (start.run front).isBusy && !(start.run (front ++ [.cancelAll])).isBusy then [.release]
      else []

/-- A new engine keeps to the protocol in every run in which no batch is ended from outside. -/
theorem run_keeps_protocol (graph : FileGraph) (options : EngineOptions) (site : σ) (dawn : Nat)
    (acts : List (Act σ)) (by_rule : ∀ a ∈ acts, a.endsBatch = false) :
    (fresh graph options site dawn).KeepsProtocol acts := by
  have keeps (front : List (Act σ)) (within : front <+: acts) :
      (((fresh graph options site dawn).run front).footing.after
        ((fresh graph options site dawn).history front)).Keeps :=
    run_keeps (e := fresh graph options site dawn) Footing.keeps_start
      fun a ha => by_rule a (within.subset ha)
  have all := keeps acts (List.prefix_refl _)
  exact {
    history := (history_signs (fresh graph options site dawn) acts).symm
    word := by
      rw [hostTrace_history]
      exact all.word
    fits := all.fits
    suspended := fun front within => ⟨(keeps front within).suspended, (keeps front within).heldBack⟩
    deferred := fun front within => (keeps front within).deferred
    cancelled := fun front within => by
      have held := (keeps front ((List.prefix_append _ _).trans within)).suspended
      have last : (fresh graph options site dawn).run (front ++ [.cancelAll]) =
          ((fresh graph options site dawn).run front).act .cancelAll := by simp [run]
      rw [last]
      exact cancelAll_told held }

/-- A batch that a wish waits for, and one that is called off. -/
def twoBatches : List (Act Sandbox) :=
  [.compileFile (.ofText "x.ink") false, .tryRestricted, .poll 0, .setMode .editing 0,
    .compileFile (.ofText "x.ink") false, .tryRestricted, .cancelAll]

/-- The wish that waits for the first batch is made good; that for the second is not. -/
theorem two_batches_keep_protocol :
    (∀ a ∈ twoBatches, a.endsBatch = false) ∧
      (∃ s, ((fresh twoOwners {} twoOwnersSite 0).run twoBatches).hostTrace =
        [.suspend, .deferred, .release, .stackCompleted s, .enterRestricted, .suspend, .deferred,
          .release]) ∧
      (fresh twoOwners {} twoOwnersSite 0).KeepsProtocol twoBatches := by
  have by_rule : ∀ a ∈ twoBatches, a.endsBatch = false := by simp [twoBatches, Act.endsBatch]
  refine ⟨by_rule, ⟨_, by rfl⟩, ?_⟩
  exact run_keeps_protocol twoOwners {} twoOwnersSite 0 twoBatches by_rule

end Engine

end StoryBuild
