import Mathlib.Computability.Language
import StoryBuild.Proofs.HostSteps

namespace StoryBuild

open Computability

/-- What the host is told by a sign. -/
def Sign.host? : Sign → Option HostEvent
  | .host e => some e
  | _ => none

/-- Whether a sign marks that everything was called off, which no event tells. -/
def Sign.isMark : Sign → Bool
  | .cancelled => true
  | _ => false

/-- What the host is told by some signs. -/
def hostPart (signs : List Sign) : List HostEvent :=
  signs.filterMap Sign.host?

/-- The report on one batch. -/
def batchReport : Language HostEvent :=
  {w | ∃ s, w = [.stackCompleted s]}

/-- What ends a batch: a release alone, or one with a report, after which the restricted mode may be
entered. -/
def batchEnd : Language HostEvent :=
  {[.release]} + {[.release]} * batchReport * (1 + {[.enterRestricted]})

/-- What the host is told about one batch. -/
def batchWord : Language HostEvent :=
  {[.suspend]} * ({[.deferred]} : Language HostEvent)∗ * batchEnd

/-- What the host is told about batch after batch. -/
def hostProtocol : Language HostEvent :=
  batchWord∗

/-- A sign was given, and none since has ended its force. -/
def InForce (given : Sign) (ends before : List Sign) : Prop :=
  ∃ earlier since, before = earlier ++ given :: since ∧ ∀ sign ∈ since, sign ∉ ends

/-- The host was held back and not released since. -/
def HeldBack (before : List Sign) : Prop :=
  InForce (.host .suspend) [.host .release] before

/-- A wish for the restricted mode was put off since the batch was announced and everything was
called off last. -/
def WishWaits (before : List Sign) : Prop :=
  InForce (.host .deferred) [.host .suspend, .cancelled] before

/-- What a sign asks of the signs before and after it. -/
def Sign.Fits (before after : List Sign) : Sign → Prop
  | .called _ _ => HeldBack before
  | .drained s => [.host .release, .host (.stackCompleted s)] <+: after
  | .host .release =>
    (∃ s, [.drained s] <:+ before ∧ [.host (.stackCompleted s)] <+: after) ∨
      [.cancelled] <:+ before
  | .host (.stackCompleted s) =>
    [.drained s, .host .release] <:+ before ∧
      ((hostPart after).head? = some .enterRestricted ↔ WishWaits before ∧ s.hasErrors = false)
  | _ => True

/-- Every sign of a history fits its place. -/
def AllFit (history : List Sign) : Prop :=
  ∀ before sign after, history = before ++ sign :: after → sign.Fits before after

theorem deferrals_mem (n : Nat) :
    List.replicate n HostEvent.deferred ∈ ({[.deferred]} : Language HostEvent)∗ := by
  refine Language.mem_kstar.mpr ⟨List.replicate n [.deferred], ?_, fun y hy => ?_⟩
  · induction n with
    | zero => rfl
    | succ n ih => simp [List.replicate_succ, ← ih]
  · exact (List.eq_of_mem_replicate hy : y = [.deferred])

theorem protocol_append {w ending : List HostEvent} (hw : w ∈ hostProtocol) (n : Nat)
    (he : ending ∈ batchEnd) :
    w ++ .suspend :: List.replicate n .deferred ++ ending ∈ hostProtocol := by
  have batch : [.suspend] ++ List.replicate n .deferred ++ ending ∈ batchWord :=
    Language.append_mem_mul (Language.append_mem_mul rfl (deferrals_mem n)) he
  have longer : w ++ ([.suspend] ++ List.replicate n .deferred ++ ending) ∈
      batchWord∗ * batchWord := Language.append_mem_mul hw batch
  rw [hostProtocol, ← Language.one_add_kstar_mul_self_eq_kstar]
  refine (Language.mem_add _ _ _).mpr (.inr ?_)
  simpa using longer

theorem release_mem : [.release] ∈ batchEnd :=
  .inl rfl

theorem report_mem (s : Summary) (enters : Bool) :
    .release :: .stackCompleted s :: (if enters then [.enterRestricted] else []) ∈ batchEnd := by
  have report : [.release] ++ [.stackCompleted s] ∈ {[.release]} * batchReport :=
    Language.append_mem_mul rfl ⟨s, rfl⟩
  have entry : (if enters then [.enterRestricted] else []) ∈
      (1 + {[.enterRestricted]} : Language HostEvent) := by
    cases enters with
    | false => exact .inl rfl
    | true => exact .inr rfl
  exact .inr (Language.append_mem_mul report entry)

theorem InForce.mem {given : Sign} {ends before : List Sign} (h : InForce given ends before) :
    given ∈ before := by
  obtain ⟨earlier, since, rfl, -⟩ := h
  simp

/-- A sign is in force if it was given lately, or before and nothing has ended its force lately. -/
theorem inForce_append {given : Sign} {ends before lately : List Sign} :
    InForce given ends (before ++ lately) ↔
      InForce given ends lately ∨ InForce given ends before ∧ ∀ sign ∈ lately, sign ∉ ends := by
  constructor
  · rintro ⟨earlier, since, eq, free⟩
    rcases List.append_eq_append_iff.mp eq with ⟨between, rfl, rfl⟩ | ⟨between, rfl, later⟩
    · exact .inl ⟨between, since, rfl, free⟩
    · cases between with
      | nil => exact .inl ⟨[], since, later.symm, free⟩
      | cons first rest =>
        cases later
        exact .inr ⟨⟨earlier, rest, rfl, fun x hx => free x (List.mem_append_left _ hx)⟩,
          fun x hx => free x (List.mem_append_right _ hx)⟩
  · rintro (⟨earlier, since, rfl, free⟩ | ⟨⟨earlier, since, rfl, free⟩, quiet⟩)
    · exact ⟨before ++ earlier, since, by simp, free⟩
    · refine ⟨earlier, since ++ lately, by simp, fun x hx => ?_⟩
      rcases List.mem_append.mp hx with hx | hx
      · exact free x hx
      · exact quiet x hx

theorem inForce_concat {given sign : Sign} {ends before : List Sign} :
    InForce given ends (before ++ [sign]) ↔
      sign = given ∨ InForce given ends before ∧ sign ∉ ends := by
  have last : InForce given ends [sign] ↔ sign = given := by
    constructor
    · intro h
      exact (List.mem_singleton.mp h.mem).symm
    · rintro rfl
      exact ⟨[], [], rfl, by simp⟩
  rw [inForce_append, last]
  simp

@[simp] theorem hostPart_nil : hostPart [] = [] := rfl

@[simp] theorem hostPart_host (e : HostEvent) (signs : List Sign) :
    hostPart (.host e :: signs) = e :: hostPart signs := rfl

@[simp] theorem hostPart_called (job : Nat) (master : Path) (signs : List Sign) :
    hostPart (.called job master :: signs) = hostPart signs := rfl

@[simp] theorem hostPart_drained (s : Summary) (signs : List Sign) :
    hostPart (.drained s :: signs) = hostPart signs := rfl

@[simp] theorem hostPart_cancelled (signs : List Sign) :
    hostPart (.cancelled :: signs) = hostPart signs := rfl

@[simp] theorem hostPart_append (xs ys : List Sign) :
    hostPart (xs ++ ys) = hostPart xs ++ hostPart ys :=
  List.filterMap_append

theorem hostPart_unmarked (signs : List Sign) :
    hostPart (signs.filter fun sign => !sign.isMark) = hostPart signs := by
  induction signs with
  | nil => rfl
  | cons sign rest ih =>
    cases sign with
    | host e => exact congrArg (e :: ·) ih
    | _ => exact ih

/-- What comes later does not spoil a place, unless it begins with an entry. -/
theorem Sign.Fits.append {before after more : List Sign} {sign : Sign}
    (h : sign.Fits before after) (apart : (hostPart more).head? ≠ some .enterRestricted) :
    sign.Fits before (after ++ more) := by
  have longer {xs : List Sign} (within : xs <+: after) : xs <+: after ++ more :=
    within.trans (List.prefix_append _ _)
  cases sign with
  | called => exact h
  | drained => exact longer h
  | cancelled => trivial
  | host e =>
    cases e with
    | release =>
      refine h.imp_left ?_
      rintro ⟨s, drained, told⟩
      exact ⟨s, drained, longer told⟩
    | stackCompleted s =>
      -- The answer to a report is the next thing that the host is told, maybe only later.
      refine ⟨h.1, Iff.trans ?_ h.2⟩
      rw [hostPart_append, List.head?_append]
      cases hn : (hostPart after).head? with
      | none => simp [apart]
      | some first => simp
    | _ => trivial

/-- The signs from a place on fit, one after the other. -/
def FitFrom (before : List Sign) : List Sign → Prop
  | [] => True
  | sign :: after => sign.Fits before after ∧ FitFrom (before ++ [sign]) after

theorem FitFrom.fits {before signs : List Sign} (h : FitFrom before signs)
    (middle after : List Sign) (sign : Sign) (eq : signs = middle ++ sign :: after) :
    sign.Fits (before ++ middle) after := by
  induction middle generalizing before signs with
  | nil =>
    subst eq
    simpa using h.1
  | cons first rest ih =>
    subst eq
    have later := ih h.2 rfl
    simpa using later

theorem AllFit.append {history more : List Sign} (h : AllFit history)
    (apart : (hostPart more).head? ≠ some .enterRestricted) (fit : FitFrom history more) :
    AllFit (history ++ more) := by
  intro before sign after eq
  rcases List.append_eq_append_iff.mp eq with ⟨middle, rfl, new⟩ | ⟨rest, old, new⟩
  · exact fit.fits middle after sign new
  · cases rest with
    | nil =>
      have here := fit.fits [] after sign new.symm
      simp_all
    | cons first rest =>
      cases new
      exact (h before sign rest old).append apart

namespace Footing

/-- An engine has kept to the protocol so far. -/
structure Keeps (f : Footing) : Prop where
  suspended : f.suspended = f.busy
  deferred : f.deferred = true ↔ f.busy = true ∧ WishWaits f.heard
  between : f.busy = false → hostPart f.heard ∈ hostProtocol
  outstanding : f.busy = true → ∃ w ∈ hostProtocol, ∃ n,
    hostPart f.heard = w ++ .suspend :: List.replicate n .deferred
  heldBack : f.busy = true ↔ HeldBack f.heard
  fits : AllFit f.heard

theorem keeps_start : Keeps ⟨false, false, false, []⟩ where
  suspended := rfl
  deferred := by simp
  between _ := Language.nil_mem_kstar _
  outstanding := by simp
  heldBack := by simp [HeldBack, InForce]
  fits := by
    intro before sign after eq
    simp at eq

theorem Keeps.word {f : Footing} (h : f.Keeps) : ∃ w ∈ hostProtocol, hostPart f.heard <+: w := by
  cases busy : f.busy with
  | false => exact ⟨_, h.between busy, List.prefix_refl _⟩
  | true =>
    obtain ⟨w, hw, n, eq⟩ := h.outstanding busy
    rw [eq]
    exact ⟨_, protocol_append hw n release_mem, List.prefix_append _ _⟩

theorem Keeps.suspend {f : Footing} (h : f.Keeps) (idle : f.busy = false) :
    Keeps { f with busy := true, suspended := true, heard := f.heard ++ [.host .suspend] } where
  suspended := rfl
  deferred := by
    have none_ : f.deferred = false := by simpa [idle] using h.deferred
    simp [none_, WishWaits, inForce_concat]
  between := by simp
  outstanding _ := ⟨hostPart f.heard, h.between idle, 0, by simp⟩
  heldBack := by simp [HeldBack, inForce_concat]
  fits := h.fits.append (by simp) ⟨trivial, trivial⟩

theorem Keeps.call {f : Footing} (h : f.Keeps) (job : Nat) (master : Path) (busy : f.busy = true) :
    Keeps { f with heard := f.heard ++ [.called job master] } where
  suspended := h.suspended
  deferred := by simp [h.deferred, WishWaits, inForce_concat]
  between idle := by simp_all
  outstanding _ := by simpa using h.outstanding busy
  heldBack := by simpa [HeldBack, inForce_concat] using h.heldBack
  fits := h.fits.append (by simp) ⟨h.heldBack.mp busy, trivial⟩

theorem Keeps.defer {f : Footing} (h : f.Keeps) (busy : f.busy = true) :
    Keeps { f with deferred := true, heard := f.heard ++ [.host .deferred] } where
  suspended := h.suspended
  deferred := by simp [busy, WishWaits, inForce_concat]
  between idle := by simp_all
  outstanding _ := by
    obtain ⟨w, hw, n, eq⟩ := h.outstanding busy
    refine ⟨w, hw, n + 1, ?_⟩
    rw [hostPart_append, eq, List.replicate_succ']
    simp
  heldBack := by simpa [HeldBack, inForce_concat, busy] using h.heldBack
  fits := h.fits.append (by simp) ⟨trivial, trivial⟩

/-- A batch ends: it was announced, so the host is released, gets the report, and enters the
restricted mode if it waits for that and there were no errors. -/
theorem Keeps.drain {f : Footing} (h : f.Keeps) (s : Summary) (busy : f.busy = true) :
    Keeps ⟨false, false, false, f.heard ++ f.farewell s⟩ := by
  have said : f.farewell s = [.drained s, .host .release, .host (.stackCompleted s)] ++
      if f.deferred && !s.hasErrors then [.host .enterRestricted] else [] := by
    simp [farewell, h.suspended, busy]
  have told : hostPart (f.farewell s) = .release :: .stackCompleted s ::
      if f.deferred && !s.hasErrors then [.enterRestricted] else [] := by
    rw [said]
    cases f.deferred && !s.hasErrors <;> rfl
  have waits : WishWaits (f.heard ++ [.drained s] ++ [.host .release]) ↔ f.deferred = true := by
    rw [WishWaits, inForce_concat, inForce_concat]
    simp [h.deferred, busy, WishWaits]
  have released : ¬ HeldBack (f.heard ++ f.farewell s) := by
    rw [HeldBack, inForce_append, said]
    rintro (again | ⟨-, quiet⟩)
    · have told := again.mem
      cases f.deferred && !s.hasErrors <;> simp at told
    · exact quiet (.host .release) (by simp) (by simp)
  exact {
    suspended := rfl
    deferred := by simp
    between := fun _ => by
      obtain ⟨w, hw, n, eq⟩ := h.outstanding busy
      rw [hostPart_append, eq, told]
      exact protocol_append hw n (report_mem s _)
    outstanding := by simp
    heldBack := by simp [released]
    fits := by
      refine h.fits.append (by simp [told]) ?_
      rw [said]
      refine ⟨⟨_, rfl⟩, .inl ⟨s, ⟨_, rfl⟩, ⟨_, rfl⟩⟩, ⟨⟨f.heard, by simp⟩, ?_⟩, ?_⟩
      · rw [waits]
        cases f.deferred <;> cases s.hasErrors <;> simp
      · cases f.deferred && !s.hasErrors
        · trivial
        · exact ⟨trivial, trivial⟩ }

/-- Everything is called off but for finished jobs: the batch goes on without its wish. -/
theorem Keeps.cancel_part {f : Footing} (h : f.Keeps) (busy : f.busy = true) :
    Keeps ⟨true, f.suspended, false, f.heard ++ [.cancelled]⟩ where
  suspended := h.suspended.trans busy
  deferred := by simp [WishWaits, inForce_concat]
  between := by simp
  outstanding _ := by simpa using h.outstanding busy
  heldBack := by simpa [HeldBack, inForce_concat, busy] using h.heldBack
  fits := h.fits.append (by simp) ⟨trivial, trivial⟩

/-- Everything is called off: the host is released with the last job of the batch. -/
theorem Keeps.cancel_whole {f : Footing} (h : f.Keeps) :
    Keeps ⟨false, false, false, f.heard ++ .cancelled :: f.relief false⟩ where
  suspended := rfl
  deferred := by simp
  between _ := by
    cases busy : f.busy with
    | false => simpa [relief, h.suspended, busy] using h.between busy
    | true =>
      obtain ⟨w, hw, n, eq⟩ := h.outstanding busy
      have told : f.relief false = [.host .release] := by simp [relief, h.suspended, busy]
      rw [told, hostPart_append, eq]
      exact protocol_append hw n release_mem
  outstanding := by simp
  heldBack := by
    refine iff_of_false (by simp) ?_
    rw [HeldBack, inForce_append]
    rintro (again | ⟨held, quiet⟩)
    · refine absurd again.mem ?_
      unfold relief
      split <;> simp
    · have busy := h.heldBack.mpr held
      exact quiet (.host .release) (by simp [relief, h.suspended, busy]) (by simp)
  fits := by
    unfold relief
    split
    next => exact h.fits.append (by simp) ⟨trivial, .inr ⟨f.heard, rfl⟩, trivial⟩
    next => exact h.fits.append (by simp) ⟨trivial, trivial⟩

theorem Keeps.cancel {f : Footing} (h : f.Keeps) (left : Bool)
    (rest : left = true → f.busy = true) :
    Keeps ⟨left, f.suspended && left, false, f.heard ++ .cancelled :: f.relief left⟩ := by
  cases left with
  | true =>
    have silent : f.relief true = [] := by simp [relief]
    rw [silent, Bool.and_true]
    exact h.cancel_part (rest rfl)
  | false =>
    rw [Bool.and_false]
    exact h.cancel_whole

theorem step_keeps {f g : Footing} (step : Step f g) (h : f.Keeps) : g.Keeps := by
  cases step with
  | suspend idle free => exact h.suspend idle
  | join announced =>
    have busy : f.busy = true := by simpa [h.suspended] using announced
    rw [← busy]
    exact h
  | call job master busy => exact h.call job master busy
  | defer busy => exact h.defer busy
  | drain s busy => exact h.drain s busy
  | cancel left rest => exact h.cancel left rest

theorem steps_keep {f g : Footing} (steps : Steps f g) (h : f.Keeps) : g.Keeps := by
  induction steps with
  | refl => exact h
  | tail _ step ih => exact step_keeps step ih

/-- The footing with another past. -/
def after (f : Footing) (heard : List Sign) : Footing :=
  { f with heard }

theorem step_after {f g : Footing} (step : Step f g) :
    ∃ new, g.heard = f.heard ++ new ∧
      ∀ heard, Step (f.after heard) (g.after (heard ++ new)) := by
  cases step with
  | suspend idle free => exact ⟨_, rfl, fun _ => .suspend idle free⟩
  | join announced =>
    refine ⟨[], by simp, fun heard => ?_⟩
    rw [List.append_nil]
    exact .join (f := f.after heard) announced
  | call job master busy => exact ⟨_, rfl, fun _ => .call job master busy⟩
  | defer busy => exact ⟨_, rfl, fun _ => .defer busy⟩
  | drain s busy => exact ⟨_, rfl, fun heard => .drain (f := f.after heard) s busy⟩
  | cancel left rest => exact ⟨_, rfl, fun heard => .cancel (f := f.after heard) left rest⟩

theorem steps_after {f g : Footing} (steps : Steps f g) :
    ∃ new, g.heard = f.heard ++ new ∧
      ∀ heard, Steps (f.after heard) (g.after (heard ++ new)) := by
  induction steps with
  | refl => exact ⟨[], by simp, fun heard => by rw [List.append_nil]⟩
  | tail _ step ih =>
    obtain ⟨first, eq, steps⟩ := ih
    obtain ⟨last, eq', step⟩ := step_after step
    refine ⟨first ++ last, by rw [eq', eq, List.append_assoc], fun heard => ?_⟩
    rw [← List.append_assoc]
    exact (steps heard).tail (step _)

end Footing

end StoryBuild
