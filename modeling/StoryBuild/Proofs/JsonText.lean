import StoryBuild.Json.Reader
import StoryBuild.Json.Writer
import StoryBuild.Text.Digit
import Mathlib.Data.List.Basic

namespace StoryBuild

/-- Decimal digits spell their number. -/
theorem readDecimal_toDigits (n : Nat) : readDecimal (Nat.toDigits 10 n) = some n := by
  have digits : (Nat.toDigits 10 n).all Char.isDigit = true :=
    List.all_eq_true.mpr fun c hc => Nat.isDigit_of_mem_toDigits (by decide) (by decide) hc
  have value := Nat.ofDigitChars_ten_toDigits (n := n)
  rw [Nat.ofDigitChars_eq_foldl] at value
  rw [readDecimal, if_pos ⟨Nat.toDigits_ne_nil, digits⟩]
  exact congrArg some value

/-- Only the number zero starts with a zero. -/
theorem head_toDigits {n : Nat} (positive : 0 < n) : (Nat.toDigits 10 n).head? ≠ some '0' := by
  induction n using Nat.strongRecOn with
  | ind n ih =>
    by_cases small : n < 10
    · rw [Nat.toDigits_of_lt_base small]
      have nonzero : ∀ d < 10, 0 < d → Nat.digitChar d ≠ '0' := by decide
      simpa using nonzero n small positive
    · rw [Nat.toDigits_of_base_le (by decide) (by omega),
        List.head?_append_of_ne_nil _ Nat.toDigits_ne_nil]
      exact ih (n / 10) (by omega) (by omega)

namespace Json

theorem skip_indent (depth : Nat) (cs : List Char) : skip (indent depth ++ cs) = skip cs := by
  have blank : ∀ c ∈ indent depth, isSpace c = true := by
    intro c hc
    rcases List.mem_cons.mp hc with rfl | hc
    · decide
    · rw [(List.mem_replicate.mp hc).2]
      decide
  exact List.dropWhile_append_of_pos blank

theorem skip_cons {c : Char} (h : isSpace c = false) (cs : List Char) :
    skip (c :: cs) = c :: cs := by
  simp [skip, h]

/-- A number below the halves of surrogate pairs stands for its own character. -/
theorem joinUnits_plain {n : Nat} (small : n < 32) (units : List (Char ⊕ Nat)) :
    joinUnits (.inr n :: units) = (joinUnits units).map (Char.ofNat n :: ·) := by
  have high : isHighHalf n = false := by
    simp only [isHighHalf, Bool.and_eq_false_iff, decide_eq_false_iff_not]
    omega
  have low : isLowHalf n = false := by
    simp only [isLowHalf, Bool.and_eq_false_iff, decide_eq_false_iff_not]
    omega
  cases units with
  | nil => simp [joinUnits, high, low]
  | cons unit units => cases unit <;> simp [joinUnits, high, low]

theorem hexFour_hexPair {n : Nat} (small : n < 32) :
    hexFour? '0' '0' (Nat.digitChar (n / 16)) (Nat.digitChar (n % 16)) = some n := by
  revert n
  decide

theorem readUnits_short {e c : Char} (h : shortEscape? e = some c) (cs : List Char) :
    readUnits ('\\' :: e :: cs) = (readUnits cs).map fun r => (.inl c :: r.1, r.2) := by
  have other : e ≠ 'u' := by
    rintro rfl
    cases h
  rw [readUnits.eq_def]
  split
  next same => cases same
  next same => cases same
  next same =>
    cases same
    exact absurd rfl other
  next e' cs' distinct same =>
    cases same
    rw [h]
    cases readUnits cs <;> rfl
  next c' cs' _ _ distinct same =>
    obtain ⟨rfl, rfl⟩ := List.cons.inj same
    exact absurd rfl (distinct e cs rfl)

theorem readUnits_control {n : Nat} (small : n < 32) (cs : List Char) :
    readUnits ('\\' :: 'u' :: '0' :: '0' :: (hexPair n ++ cs)) =
      (readUnits cs).map fun r => (.inr n :: r.1, r.2) := by
  simp only [hexPair, List.cons_append, List.nil_append, readUnits, hexFour_hexPair small]
  cases readUnits cs <;> rfl

theorem readUnits_plain {c : Char} (quote : c ≠ '\x22') (slash : c ≠ '\\') (large : ¬ c.toNat < 32)
    (cs : List Char) :
    readUnits (c :: cs) = (readUnits cs).map fun r => (.inl c :: r.1, r.2) := by
  have other : ¬ (c.toNat < 32 ∨ c = '\\') := not_or.mpr ⟨large, slash⟩
  rw [readUnits.eq_def]
  split
  next h => cases h
  next h => exact absurd (List.cons.inj h).1 quote
  next h => exact absurd (List.cons.inj h).1 slash
  next h => exact absurd (List.cons.inj h).1 slash
  next h =>
    obtain ⟨rfl, rfl⟩ := List.cons.inj h
    rw [if_neg other]
    cases readUnits cs <;> rfl

/-- A character that is written between quotes is read as one unit, which gives it back. -/
theorem readUnits_escape (c : Char) : ∃ unit,
    (∀ cs, readUnits (escapeChar c ++ cs) = (readUnits cs).map fun r => (unit :: r.1, r.2)) ∧
      ∀ units, joinUnits (unit :: units) = (joinUnits units).map (c :: ·) := by
  have same : ∀ units, joinUnits (.inl c :: units) = (joinUnits units).map (c :: ·) :=
    fun units => by rw [joinUnits]
  unfold escapeChar
  -- Seven characters have a short escape, the other control characters are written by their number.
  split
  next h =>
    subst h
    exact ⟨_, readUnits_short rfl, same⟩
  next quote =>
  split
  next h =>
    subst h
    exact ⟨_, readUnits_short rfl, same⟩
  next slash =>
  split
  next h =>
    subst h
    exact ⟨_, readUnits_short rfl, same⟩
  next =>
  split
  next h =>
    subst h
    exact ⟨_, readUnits_short rfl, same⟩
  next =>
  split
  next h =>
    subst h
    exact ⟨_, readUnits_short rfl, same⟩
  next =>
  split
  next h =>
    subst h
    exact ⟨_, readUnits_short rfl, same⟩
  next =>
  split
  next h =>
    subst h
    exact ⟨_, readUnits_short rfl, same⟩
  next =>
  split
  next control =>
    refine ⟨.inr c.toNat, readUnits_control control, fun units => ?_⟩
    rw [joinUnits_plain control, Char.ofNat_toNat]
  next large => exact ⟨.inl c, readUnits_plain quote slash large, same⟩

/-- Between quotes a text is read back. -/
theorem readText_escaped (s : String) (rest : List Char) :
    readText (s.toList.flatMap escapeChar ++ '\x22' :: rest) = some (some s, rest) := by
  have units : ∀ cs : List Char, ∃ units,
      readUnits (cs.flatMap escapeChar ++ '\x22' :: rest) = some (units, rest) ∧
        joinUnits units = some cs := by
    intro cs
    induction cs with
    | nil => exact ⟨[], by simp [readUnits], by simp [joinUnits]⟩
    | cons c cs ih =>
      obtain ⟨units, read, joined⟩ := ih
      obtain ⟨unit, reads, joins⟩ := readUnits_escape c
      refine ⟨unit :: units, ?_, by rw [joins, joined, Option.map_some]⟩
      rw [List.flatMap_cons, List.append_assoc, reads, read, Option.map_some]
  obtain ⟨units, read, joined⟩ := units s.toList
  simp [readText, read, joined]

/-- What follows a value that is written: nothing, the next item, or the end of its list. -/
def Follows (rest : List Char) : Prop :=
  rest = [] ∨ ∃ cs, rest = ',' :: cs ∨ rest = '\n' :: cs

theorem Follows.not_digit {rest : List Char} (h : Follows rest) :
    rest.takeWhile Char.isDigit = [] ∧ rest.dropWhile Char.isDigit = rest := by
  rcases h with rfl | ⟨cs, rfl | rfl⟩ <;> simp

theorem readUnsigned_toDigits (n : Nat) {rest : List Char} (follows : Follows rest) :
    readUnsigned (Nat.toDigits 10 n ++ rest) = some (Nat.toDigits 10 n, rest) := by
  have digits : ∀ c ∈ Nat.toDigits 10 n, c.isDigit = true :=
    fun c hc => Nat.isDigit_of_mem_toDigits (by decide) (by decide) hc
  have read : readDigits (Nat.toDigits 10 n ++ rest) = some (Nat.toDigits 10 n, rest) := by
    rw [readDigits, List.takeWhile_append_of_pos digits, List.dropWhile_append_of_pos digits,
      follows.not_digit.1, follows.not_digit.2, List.append_nil]
    cases h : Nat.toDigits 10 n with
    | nil => exact absurd h Nat.toDigits_ne_nil
    | cons => rfl
  have whole : readWhole (Nat.toDigits 10 n ++ rest) = some (Nat.toDigits 10 n, rest) := by
    rw [readWhole, read]
    rcases Nat.eq_zero_or_pos n with rfl | positive
    · rfl
    · have first := head_toDigits positive
      generalize Nat.toDigits 10 n = digits at first ⊢
      simp only [Option.bind_eq_bind, Option.bind_some]
      split <;> simp_all
  have nothing : readFraction rest = some ([], rest) ∧ readExponent rest = some ([], rest) := by
    rcases follows with rfl | ⟨cs, rfl | rfl⟩ <;> simp [readFraction, readExponent]
  simp [readUnsigned, whole, nothing.1, nothing.2]

/-- The values whose text is read back: their texts are whole and their numbers have no sign. -/
inductive Plain : Json → Prop where
  | null : Plain .null
  | bool (b : Bool) : Plain (.bool b)
  | nat (n : Nat) : Plain (.nat n)
  | text (s : String) : Plain (.text s)
  | array {items : List Json} (each : ∀ item ∈ items, Plain item) : Plain (.array items)
  | object {fields : List (String × Json)} (each : ∀ field ∈ fields, Plain field.2) :
      Plain (.object fields)

/-- With as many steps as its text is long, a value is read back. -/
def Reads (j : Json) : Prop :=
  ∀ depth steps rest, (write depth j).length ≤ steps → Follows rest →
    readValue steps (write depth j ++ rest) = some (j, rest)

theorem solid_of_digit {c : Char} (digit : c.isDigit = true) : isSpace c = false := by
  by_contra space
  simp only [isSpace, Bool.not_eq_false, Bool.or_eq_true, decide_eq_true_eq] at space
  rcases space with ((rfl | rfl) | rfl) | rfl <;> cases digit

theorem readValue_digit {c : Char} (digit : c.isDigit = true) (steps : Nat) (cs : List Char) :
    readValue (steps + 1) (c :: cs) =
      (readUnsigned (c :: cs)).map fun r => (.number r.1, r.2) := by
  rw [readValue, skip_cons (solid_of_digit digit)]
  split <;> simp_all [Char.isDigit]

theorem reads_nat (n : Nat) : Reads (.nat n) := by
  intro depth steps rest long follows
  have digits : ∀ c ∈ Nat.toDigits 10 n, c.isDigit = true :=
    fun c hc => Nat.isDigit_of_mem_toDigits (by decide) (by decide) hc
  have read := readUnsigned_toDigits n follows
  simp only [Json.nat, write] at long ⊢
  obtain ⟨c, cs, same⟩ := List.exists_cons_of_ne_nil (Nat.toDigits_ne_nil (n := n) (b := 10))
  rw [same] at long digits read ⊢
  obtain ⟨steps, rfl⟩ : ∃ k, steps = k + 1 := ⟨steps - 1, by simp at long; omega⟩
  rw [List.cons_append, readValue_digit (digits c List.mem_cons_self), ← List.cons_append, read,
    Option.map_some]

/-- What follows the opening bracket of a list or record that is written is no closing one. -/
theorem write_head {j : Json} (plain : Plain j) (depth : Nat) :
    ∃ c cs, write depth j = c :: cs ∧ isSpace c = false ∧ c ≠ ']' := by
  cases plain with
  | null => exact ⟨'n', _, rfl, by decide, by decide⟩
  | bool b => cases b <;> exact ⟨_, _, rfl, by decide, by decide⟩
  | nat n =>
    obtain ⟨c, cs, same⟩ := List.exists_cons_of_ne_nil (Nat.toDigits_ne_nil (n := n) (b := 10))
    have digit : c.isDigit = true :=
      Nat.isDigit_of_mem_toDigits (by decide) (by decide) (same ▸ List.mem_cons_self)
    refine ⟨c, cs, by rw [Json.nat, write, same], solid_of_digit digit, ?_⟩
    rintro rfl
    cases digit
  | text s => exact ⟨'\x22', _, rfl, by decide, by decide⟩
  | @array items => cases items <;> exact ⟨'[', _, rfl, by decide, by decide⟩
  | @object fields => cases fields <;> exact ⟨'\x7b', _, rfl, by decide, by decide⟩

theorem readValue_indent (steps depth : Nat) (cs : List Char) :
    readValue steps (indent depth ++ cs) = readValue steps cs := by
  cases steps with
  | zero => rw [readValue, readValue]
  | succ => rw [readValue, readValue, skip_indent]

theorem readItems_indent (steps depth : Nat) (cs : List Char) :
    readItems steps (indent depth ++ cs) = readItems steps cs := by
  cases steps with
  | zero => rw [readItems, readItems]
  | succ => rw [readItems, readItems, readValue_indent]

theorem readFields_indent (steps depth : Nat) (cs : List Char) :
    readFields steps (indent depth ++ cs) = readFields steps cs := by
  cases steps with
  | zero => rw [readFields, readFields]
  | succ => rw [readFields, readFields, skip_indent]

theorem follows_items (depth outer : Nat) (items : List Json) (rest : List Char) :
    Follows (writeItems depth items ++ (indent outer ++ rest)) := by
  cases items with
  | nil => exact .inr ⟨_, .inr rfl⟩
  | cons => exact .inr ⟨_, .inl rfl⟩

theorem follows_fields (depth outer : Nat) (fields : List (String × Json)) (rest : List Char) :
    Follows (writeFields depth fields ++ (indent outer ++ rest)) := by
  cases fields with
  | nil => exact .inr ⟨_, .inr rfl⟩
  | cons => exact .inr ⟨_, .inl rfl⟩

/-- The items of a list are read back, if each of them is. -/
theorem readItems_write (depth outer : Nat) (items : List Json) (item : Json) (steps : Nat)
    (rest : List Char) (each : ∀ x ∈ item :: items, Reads x)
    (long : (write depth item ++ writeItems depth items).length < steps) :
    readItems steps (write depth item ++ writeItems depth items ++ (indent outer ++ ']' :: rest)) =
      some (item :: items, rest) := by
  induction items generalizing item steps with
  | nil =>
    obtain ⟨steps, rfl⟩ : ∃ k, steps = k + 1 := ⟨steps - 1, by omega⟩
    rw [writeItems, List.append_nil] at long ⊢
    have read := each item List.mem_cons_self depth steps _ (by omega)
      (follows_items depth outer [] (']' :: rest))
    rw [writeItems, List.nil_append] at read
    rw [readItems, read]
    have closed : skip (indent outer ++ ']' :: rest) = ']' :: rest := by
      rw [skip_indent, skip_cons (by decide)]
    simp [closed]
  | cons next items ih =>
    obtain ⟨steps, rfl⟩ : ∃ k, steps = k + 1 := ⟨steps - 1, by omega⟩
    have others := ih next steps (fun x hx => each x (List.mem_cons_of_mem _ hx)) (by
      simp only [writeItems, List.length_append, List.length_cons] at long ⊢
      omega)
    have read := each item List.mem_cons_self depth steps _
      (by simp only [List.length_append] at long; omega)
      (follows_items depth outer (next :: items) (']' :: rest))
    rw [readItems, List.append_assoc, read]
    have comma (cs : List Char) : skip (',' :: cs) = ',' :: cs := skip_cons (by decide) cs
    simp only [writeItems, List.cons_append, List.append_assoc, comma, Option.bind_eq_bind,
      Option.bind_some, readItems_indent]
    rw [List.append_assoc] at others
    simp [others]

/-- A field that is written is read by its name, and then by its value. -/
theorem readFields_quote (steps : Nat) (key : String) (cs : List Char) :
    readFields (steps + 1) (quote key ++ ':' :: ' ' :: cs) = (do
      let (value, cs) ← readValue steps cs
      match skip cs with
      | ',' :: cs =>
        let (fields, rest) ← readFields steps cs
        pure ((key, value) :: fields, rest)
      | '\x7d' :: rest => pure ([(key, value)], rest)
      | _ => none) := by
  have opened (cs : List Char) : skip ('\x22' :: cs) = '\x22' :: cs := skip_cons (by decide) cs
  have named (cs : List Char) : skip (':' :: cs) = ':' :: cs := skip_cons (by decide) cs
  have spaced : readValue steps (' ' :: cs) = readValue steps cs := by
    cases steps with
    | zero => rw [readValue, readValue]
    | succ => rw [readValue, readValue]; rfl
  rw [readFields, quote, List.append_assoc, List.cons_append, opened]
  simp only [List.singleton_append, readText_escaped, Option.bind_eq_bind, Option.bind_some, named]
  exact congrArg (Option.bind · _) spaced

/-- The fields of a record are read back, if the value of each of them is. -/
theorem readFields_write (depth outer : Nat) (fields : List (String × Json)) (key : String)
    (value : Json) (steps : Nat) (rest : List Char)
    (each : ∀ field ∈ (key, value) :: fields, Reads field.2)
    (long : (write depth value ++ writeFields depth fields).length < steps) :
    readFields steps (quote key ++ ':' :: ' ' :: (write depth value ++ (writeFields depth fields ++
      (indent outer ++ '\x7d' :: rest)))) = some ((key, value) :: fields, rest) := by
  induction fields generalizing key value steps with
  | nil =>
    obtain ⟨steps, rfl⟩ : ∃ k, steps = k + 1 := ⟨steps - 1, by omega⟩
    rw [writeFields, List.append_nil] at long
    have reads : Reads value := each (key, value) List.mem_cons_self
    have read := reads depth steps _ (by omega)
      (follows_fields depth outer [] ('\x7d' :: rest))
    have closed : skip (indent outer ++ '\x7d' :: rest) = '\x7d' :: rest := by
      rw [skip_indent, skip_cons (by decide)]
    rw [readFields_quote, read]
    simp [writeFields, closed]
  | cons next fields ih =>
    obtain ⟨steps, rfl⟩ : ∃ k, steps = k + 1 := ⟨steps - 1, by omega⟩
    have others := ih next.1 next.2 steps (fun x hx => each x (List.mem_cons_of_mem _ hx)) (by
      simp only [writeFields, List.length_append, List.length_cons] at long ⊢
      omega)
    have reads : Reads value := each (key, value) List.mem_cons_self
    have read := reads depth steps _ (by simp only [List.length_append] at long; omega)
      (follows_fields depth outer (next :: fields) ('\x7d' :: rest))
    have comma (cs : List Char) : skip (',' :: cs) = ',' :: cs := skip_cons (by decide) cs
    rw [readFields_quote, read]
    simp only [writeFields, List.cons_append, List.nil_append, List.append_assoc, comma,
      Option.bind_eq_bind, Option.bind_some, readFields_indent, others, Option.pure_def]

theorem readValue_bracket {c : Char} {cs rest : List Char} (opened : skip cs = c :: rest)
    (other : c ≠ ']') (steps : Nat) :
    readValue (steps + 1) ('[' :: cs) =
      (readItems steps (c :: rest)).map fun r => (.array r.1, r.2) := by
  rw [readValue, skip_cons (by decide)]
  simp only [opened]
  split
  next same => exact absurd (List.cons.inj same).1 other
  next => rfl

theorem readValue_brace {c : Char} {cs rest : List Char} (opened : skip cs = c :: rest)
    (other : c ≠ '\x7d') (steps : Nat) :
    readValue (steps + 1) ('\x7b' :: cs) =
      (readFields steps (c :: rest)).map fun r => (.object r.1, r.2) := by
  rw [readValue, skip_cons (by decide)]
  simp only [opened]
  split
  next same => exact absurd (List.cons.inj same).1 other
  next => rfl

/-- A value is read back from its text, whatever comes after it. -/
theorem reads_of_plain {j : Json} (plain : Plain j) : Reads j := by
  induction plain with
  | null =>
    intro depth steps rest long _
    obtain ⟨steps, rfl⟩ : ∃ k, steps = k + 1 := ⟨steps - 1, by simp [write] at long; omega⟩
    simp [write, readValue, skip, isSpace, readWord]
  | bool b =>
    intro depth steps rest long _
    obtain ⟨steps, rfl⟩ : ∃ k, steps = k + 1 :=
      ⟨steps - 1, by cases b <;> simp [write] at long <;> omega⟩
    cases b <;> simp [write, readValue, skip, isSpace, readWord]
  | nat n => exact reads_nat n
  | text s =>
    intro depth steps rest long _
    obtain ⟨steps, rfl⟩ : ∃ k, steps = k + 1 :=
      ⟨steps - 1, by simp [write, quote] at long; omega⟩
    rw [write, quote, List.append_assoc, readValue, List.cons_append, skip_cons (by decide)]
    simp [readText_escaped]
  | @array items each ih =>
    intro depth steps rest long _
    cases items with
    | nil =>
      obtain ⟨steps, rfl⟩ : ∃ k, steps = k + 1 := ⟨steps - 1, by simp [write] at long; omega⟩
      simp [write, readValue, skip, isSpace]
    | cons item items =>
      simp only [write, indent, List.length_append, List.length_cons] at long
      obtain ⟨steps, rfl⟩ : ∃ k, steps = k + 1 := ⟨steps - 1, by omega⟩
      have read := readItems_write (depth + 1) depth items item steps rest ih
        (by simp only [List.length_append]; omega)
      obtain ⟨c, cs, head, solid, other⟩ := write_head (each item List.mem_cons_self) (depth + 1)
      have opened (tail : List Char) : skip (indent (depth + 1) ++ c :: tail) = c :: tail := by
        rw [skip_indent, skip_cons solid]
      have bracket (tail : List Char) := readValue_bracket (opened tail) other steps
      rw [head, List.cons_append, List.cons_append] at read
      simpa [write, head, bracket] using congrArg (Option.map fun r => (Json.array r.1, r.2)) read
  | @object fields each ih =>
    intro depth steps rest long _
    cases fields with
    | nil =>
      obtain ⟨steps, rfl⟩ : ∃ k, steps = k + 1 := ⟨steps - 1, by simp [write] at long; omega⟩
      simp [write, readValue, skip, isSpace]
    | cons field fields =>
      obtain ⟨key, value⟩ := field
      simp only [write, indent, List.length_append, List.length_cons] at long
      obtain ⟨steps, rfl⟩ : ∃ k, steps = k + 1 := ⟨steps - 1, by omega⟩
      have read := readFields_write (depth + 1) depth fields key value steps rest ih
        (by simp only [List.length_append]; omega)
      have opened (cs : List Char) : skip (indent (depth + 1) ++ '\x22' :: cs) = '\x22' :: cs := by
        rw [skip_indent, skip_cons (by decide)]
      have brace (cs : List Char) := readValue_brace (opened cs) (by decide) steps
      rw [quote, List.cons_append, List.cons_append] at read
      simpa [write, quote, brace] using congrArg (Option.map fun r => (Json.object r.1, r.2)) read

/-- The text of a value spells it. -/
theorem parse_render {j : Json} (plain : Plain j) : parse j.render = some j := by
  have read := reads_of_plain plain 0 ((write 0 j).length + 1) [] (by omega) (.inl rfl)
  rw [List.append_nil] at read
  simp [parse, render, read, skip]

end Json

end StoryBuild
