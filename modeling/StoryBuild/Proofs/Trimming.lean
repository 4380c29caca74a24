import Mathlib.Data.List.DropRight
import StoryBuild.Text.Blank

namespace StoryBuild

/-- Whether a text holds nothing but blanks. -/
def AllBlank (cs : List Char) : Prop :=
  ∀ c ∈ cs, isBlank c = true

/-- Whether a text has no blanks at its ends. -/
def IsTrimmed (cs : List Char) : Prop :=
  trim cs = cs

instance (cs : List Char) : Decidable (AllBlank cs) :=
  decidable_of_iff (cs.all isBlank = true) List.all_eq_true

instance (cs : List Char) : Decidable (IsTrimmed cs) :=
  inferInstanceAs (Decidable (trim cs = cs))

theorem trim_trim (cs : List Char) : trim (trim cs) = trim cs := by
  have start : trimStart (trim cs) = trim cs := by
    have front : trim cs <+: trimStart cs := List.rdropWhile_prefix isBlank (trimStart cs)
    cases trimmed : trim cs with
    | nil => rfl
    | cons c rest =>
      obtain ⟨_, whole⟩ := trimmed ▸ front
      have head := List.head?_dropWhile_not isBlank cs
      rw [← trimStart, ← whole] at head
      exact List.dropWhile_cons_of_neg (Bool.eq_false_iff.mp head)
  rw [trim, start]
  exact List.rdropWhile_idempotent isBlank (trimStart cs)

theorem trimStart_append {lead : List Char} (blank : AllBlank lead) (cs : List Char) :
    trimStart (lead ++ cs) = trimStart cs :=
  List.dropWhile_append_of_pos blank

theorem trimEnd_append (cs : List Char) {tail : List Char} (blank : AllBlank tail) :
    trimEnd (cs ++ tail) = trimEnd cs := by
  unfold trimEnd
  rw [List.reverse_append, List.dropWhile_append_of_pos fun c hc => blank c (List.mem_reverse.mp hc)]

theorem trimStart_blank {cs : List Char} (blank : AllBlank cs) : trimStart cs = [] := by
  simpa [trimStart] using trimStart_append blank []

theorem trimEnd_blank {cs : List Char} (blank : AllBlank cs) : trimEnd cs = [] := by
  simpa [trimEnd] using trimEnd_append [] blank

/-- Only a text that is blank as a whole loses its first character when its end is trimmed. -/
theorem trimEnd_cons {c : Char} {cs : List Char} (solid : ¬ AllBlank (c :: cs)) :
    trimEnd (c :: cs) = c :: trimEnd cs := by
  have whole : (c :: cs).reverse = cs.reverse ++ [c] := List.reverse_cons
  rw [trimEnd, trimEnd, whole, List.dropWhile_append]
  split
  next blank =>
    have behind : AllBlank cs := fun d hd =>
      List.dropWhile_eq_nil_iff.mp (List.isEmpty_iff.mp blank) d (List.mem_reverse.mpr hd)
    have first : isBlank c ≠ true := fun h => solid (List.forall_mem_cons.mpr ⟨h, behind⟩)
    rw [List.isEmpty_iff.mp blank, List.dropWhile_cons_of_neg first]
    rfl
  next => rw [List.reverse_append]; rfl

/-- Nothing of a trimmed text is lost when something is put in front of it. -/
theorem mem_trimEnd_append {c : Char} {cs : List Char} (h : c ∈ trimEnd cs) (front : List Char) :
    c ∈ trimEnd (front ++ cs) := by
  induction front with
  | nil => exact h
  | cons d front ih =>
    have solid : ¬ AllBlank (d :: (front ++ cs)) := by
      intro blank
      rw [trimEnd_blank (List.forall_mem_cons.mp blank).2] at ih
      cases ih
    rw [List.cons_append, trimEnd_cons solid]
    exact List.mem_cons_of_mem d ih

/-- Nothing is dropped in front of a character that is not blank. -/
theorem trimStart_cons {c : Char} (solid : isBlank c = false) (cs : List Char) :
    trimStart (c :: cs) = c :: cs :=
  List.dropWhile_cons_of_neg (Bool.eq_false_iff.mp solid)

/-- A text without blanks at its ends is empty or starts with something else. -/
theorem IsTrimmed.head {c : Char} {cs : List Char} (h : IsTrimmed (c :: cs)) :
    isBlank c = false := by
  rw [Bool.eq_false_iff]
  intro blank
  have shorter : (trim (c :: cs)).length ≤ cs.length := by
    have dropped : trimStart (c :: cs) = trimStart cs := List.dropWhile_cons_of_pos blank
    have few := (List.rdropWhile_prefix isBlank (trimStart cs)).length_le
    have fewer := (List.dropWhile_suffix isBlank (l := cs)).length_le
    rw [trim, dropped]
    exact few.trans fewer
  rw [h, List.length_cons] at shorter
  omega

theorem IsTrimmed.trimStart {cs : List Char} (h : IsTrimmed cs) : trimStart cs = cs := by
  cases cs with
  | nil => rfl
  | cons c cs => exact trimStart_cons h.head cs

theorem trimEnd_concat {c : Char} (solid : isBlank c = false) (cs : List Char) :
    trimEnd (cs ++ [c]) = cs ++ [c] :=
  List.rdropWhile_concat_neg isBlank cs c (by simp [solid])

/-- What is trimmed stays when blanks are put around it. -/
theorem IsTrimmed.trim_append {lead body tail : List Char} (h : IsTrimmed body)
    (front : AllBlank lead) (back : AllBlank tail) : trim (lead ++ (body ++ tail)) = body := by
  rw [trim, trimStart_append front]
  cases body with
  | nil =>
    rw [List.nil_append, trimStart_blank back]
    rfl
  | cons c cs =>
    have solid := h.head
    have whole : trimEnd (c :: cs) = c :: cs := by
      rw [← trimStart_cons solid cs]
      exact h.trans (trimStart_cons solid cs).symm
    rw [List.cons_append, trimStart_cons solid, ← List.cons_append, trimEnd_append _ back, whole]

/-- The blanks in front of a text. -/
theorem exists_trimStart (cs : List Char) :
    ∃ lead, AllBlank lead ∧ cs = lead ++ trimStart cs :=
  ⟨cs.takeWhile isBlank, fun _ hc => List.mem_takeWhile_imp hc,
    (List.takeWhile_append_dropWhile).symm⟩

/-- The blanks behind a text. -/
theorem exists_trimEnd (cs : List Char) : ∃ tail, AllBlank tail ∧ cs = trimEnd cs ++ tail := by
  obtain ⟨lead, blank, whole⟩ := exists_trimStart cs.reverse
  refine ⟨lead.reverse, fun c hc => blank c (List.mem_reverse.mp hc), ?_⟩
  have back := congrArg List.reverse whole
  rw [List.reverse_reverse, List.reverse_append] at back
  exact back

/-- The blanks around a text. -/
theorem exists_trim (cs : List Char) :
    ∃ lead tail, AllBlank lead ∧ AllBlank tail ∧ cs = lead ++ (trim cs ++ tail) := by
  obtain ⟨lead, front, start⟩ := exists_trimStart cs
  obtain ⟨tail, back, rest⟩ := exists_trimEnd (trimStart cs)
  exact ⟨lead, tail, front, back, by rw [trim, ← rest, ← start]⟩

theorem mem_of_mem_trim {c : Char} {cs : List Char} (h : c ∈ trim cs) : c ∈ cs := by
  obtain ⟨lead, tail, -, -, whole⟩ := exists_trim cs
  rw [whole]
  simp [h]

theorem mem_trimEnd_of_trim {c : Char} {lead cs : List Char} (blank : AllBlank lead)
    (h : c ∈ trim (lead ++ cs)) : c ∈ trimEnd cs := by
  rw [trim, trimStart_append blank] at h
  obtain ⟨front, -, whole⟩ := exists_trimStart cs
  rw [whole]
  exact mem_trimEnd_append h front

/-- Blanks behind a text are no matter to trimming. -/
theorem trim_append_blank (cs : List Char) {tail : List Char} (blank : AllBlank tail) :
    trim (cs ++ tail) = trim cs := by
  obtain ⟨lead, behind, front, back, whole⟩ := exists_trim cs
  have longer : cs ++ tail = lead ++ (trim cs ++ (behind ++ tail)) := by
    rw [← List.append_assoc (trim cs), ← List.append_assoc lead, ← whole]
  rw [longer]
  exact IsTrimmed.trim_append (trim_trim cs) front (List.forall_mem_append.mpr ⟨back, blank⟩)

/-- A text is trimmed that starts with no blank and ends in a trimmed text. -/
theorem IsTrimmed.append_left {c : Char} {body : List Char} (h : IsTrimmed body)
    (some_ : body ≠ []) (solid : isBlank c = false) (middle : List Char) :
    IsTrimmed (c :: (middle ++ body)) := by
  obtain ⟨front, d, rfl⟩ : ∃ front d, body = front ++ [d] :=
    ⟨_, _, (List.dropLast_concat_getLast some_).symm⟩
  have last : isBlank d = false := by
    rw [Bool.eq_false_iff]
    intro blank
    have shorter : trim (front ++ [d]) = trim front :=
      trim_append_blank front (by simpa [AllBlank] using blank)
    obtain ⟨lead, behind, -, -, text⟩ := exists_trim front
    have length := congrArg List.length text
    rw [← shorter, h] at length
    simp at length
    omega
  rw [IsTrimmed, trim, trimStart_cons solid, ← List.append_assoc, ← List.cons_append,
    trimEnd_concat last]

theorem dropLead_eq_some {lead cs rest : List Char} :
    dropLead lead cs = some rest ↔ cs = lead ++ rest := by
  induction lead generalizing cs with
  | nil => simp [dropLead]
  | cons a lead ih =>
    cases cs with
    | nil => simp [dropLead]
    | cons c cs =>
      rw [dropLead, List.cons_append, List.cons.injEq, ← ih]
      split <;> simp_all [eq_comm]

theorem dropLead_append (lead rest : List Char) : dropLead lead (lead ++ rest) = some rest :=
  dropLead_eq_some.mpr rfl

theorem dropLead_singleton (c : Char) (rest : List Char) : dropLead [c] (c :: rest) = some rest :=
  dropLead_append [c] rest

end StoryBuild
