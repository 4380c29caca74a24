import Mathlib.Data.List.Infix
import StoryBuild.Compiler.Command
import StoryBuild.Proofs.PathParts

namespace StoryBuild

/-- A text with slots of some kinds between its characters. -/
abbrev Template (κ : Type) := List (Char ⊕ κ)

namespace Template

variable {κ ι : Type}

/-- The text of a template with something written into its slots. -/
def spell (f : κ → List Char) (t : Template κ) : List Char :=
  t.flatMap (Sum.elim ([·]) f)

/-- A template with others put into its slots. -/
def fill (f : κ → Template ι) (t : Template κ) : Template ι :=
  t.flatMap (Sum.elim ([.inl ·]) f)

/-- Whether no mark begins at a character when each slot has its mark written into it. All marks in
the text are then those of slots. -/
def Settled (marks : κ → List Char) : Template κ → Prop
  | [] => True
  | .inl c :: t => (∀ k, ¬ marks k <+: c :: spell marks t) ∧ Settled marks t
  | .inr _ :: t => Settled marks t

/-- Reads a text from left to right, with a slot for each mark. The number counts characters of a
mark that are still to be passed over. -/
def read (marks : κ → List Char) (kinds : List κ) : Nat → List Char → Template κ
  | _, [] => []
  | skip + 1, _ :: cs => read marks kinds skip cs
  | 0, c :: cs =>
    match kinds.find? fun k => (marks k).isPrefixOf (c :: cs) with
    | some k => .inr k :: read marks kinds ((marks k).length - 1) cs
    | none => .inl c :: read marks kinds 0 cs

/-- Whether one template has the slots of another and maybe more, where that one has the mark
character by character. -/
inductive Refines (marks : κ → List Char) : Template κ → Template κ → Prop
  | nil : Refines marks [] []
  | char (c : Char) {t t' : Template κ} : Refines marks t t' →
      Refines marks (.inl c :: t) (.inl c :: t')
  | slot (k : κ) {t t' : Template κ} : Refines marks t t' →
      Refines marks (.inr k :: t) (.inr k :: t')
  | mark (k : κ) {t t' : Template κ} : Refines marks t t' →
      Refines marks ((marks k).map .inl ++ t) (.inr k :: t')

/-- Whether marks can be told apart: they start with one character, which they have nowhere else,
and no two can stand in one place. -/
structure Apart (marks : κ → List Char) (d : Char) : Prop where
  starts : ∀ k, ∃ others, marks k = d :: others ∧ d ∉ others
  differ : ∀ k k' as bs, marks k ++ as = marks k' ++ bs → k = k'

theorem Apart.ne_nil {marks : κ → List Char} {d : Char} (h : Apart marks d) (k : κ) :
    marks k ≠ [] := by
  obtain ⟨others, mark, -⟩ := h.starts k
  rw [mark]
  exact List.cons_ne_nil d others

theorem Apart.single {marks : κ → List Char} {d : Char} (h : Apart marks d) (k : κ) :
    Apart (fun _ : Unit => marks k) d :=
  ⟨fun _ => h.starts k, fun _ _ _ _ _ => rfl⟩

section Reading

variable {f marks : κ → List Char} {d : Char} {t t' : Template κ} {kinds : List κ}

@[simp] theorem spell_nil : spell f [] = [] := rfl

@[simp] theorem spell_char (c : Char) : spell f (.inl c :: t) = c :: spell f t := rfl

@[simp] theorem spell_slot (k : κ) : spell f (.inr k :: t) = f k ++ spell f t := rfl

@[simp] theorem spell_append : spell f (t ++ t') = spell f t ++ spell f t' :=
  List.flatMap_append

@[simp] theorem spell_text (cs : List Char) : spell f (cs.map .inl) = cs := by
  induction cs with
  | nil => rfl
  | cons c cs ih => rw [List.map_cons, spell_char, ih]

theorem spell_fill {g : ι → List Char} {f : κ → Template ι} :
    spell g (fill f t) = spell (fun k => spell g (f k)) t := by
  induction t with
  | nil => rfl
  | cons piece t ih =>
    cases piece with
    | inl c => exact congrArg (c :: ·) ih
    | inr k =>
      rw [spell_slot, ← ih]
      exact spell_append

theorem read_spec (all : ∀ k, k ∈ kinds) (some_ : ∀ k, marks k ≠ []) (skip : Nat)
    (cs : List Char) :
    Settled marks (read marks kinds skip cs) ∧
      spell marks (read marks kinds skip cs) = cs.drop skip := by
  induction cs generalizing skip with
  | nil => cases skip <;> exact ⟨trivial, rfl⟩
  | cons c cs ih =>
    cases skip with
    | succ skip => exact ih skip
    | zero =>
      unfold read
      split
      next k found =>
        have front := List.find?_some found
        obtain ⟨rest, whole⟩ := List.isPrefixOf_iff_prefix.mp front
        obtain ⟨settled, text⟩ := ih ((marks k).length - 1)
        refine ⟨settled, ?_⟩
        obtain ⟨first, others, mark⟩ := List.exists_cons_of_ne_nil (some_ k)
        rw [mark, List.cons_append, List.cons.injEq] at whole
        rw [spell_slot, text, mark, List.length_cons, Nat.add_sub_cancel, ← whole.2,
          List.drop_left, List.drop_zero, List.cons_append, whole.1]
      next none_ =>
        obtain ⟨settled, text⟩ := ih 0
        rw [List.drop_zero] at text
        refine ⟨⟨fun k front => ?_, settled⟩, congrArg (c :: ·) text⟩
        rw [text, ← List.isPrefixOf_iff_prefix] at front
        exact List.find?_eq_none.mp none_ k (all k) front

/-- A mark begins in a stretch of text just if one of its ends starts with it. -/
theorem settled_text {cs : List Char} :
    Settled marks (cs.map .inl ++ t) ↔
      (∀ end_, end_ <:+ cs → end_ ≠ [] → ∀ k, ¬ marks k <+: end_ ++ spell marks t) ∧
        Settled marks t := by
  induction cs with
  | nil => simp
  | cons c cs ih =>
    rw [List.map_cons, List.cons_append, Settled, ih, spell_append, spell_text, ← and_assoc]
    refine and_congr_left fun _ => ?_
    constructor
    · rintro ⟨first, later⟩ end_ ends some_
      rcases List.suffix_cons_iff.mp ends with rfl | ends
      · exact first
      · exact later end_ ends some_
    · intro none_
      exact ⟨none_ (c :: cs) (List.suffix_refl _) (List.cons_ne_nil _ _),
        fun end_ ends => none_ end_ (ends.trans (List.suffix_cons c cs))⟩

/-- A text in which no mark can begin is made of characters. -/
theorem chars_of_spell (apart : Apart marks d) {word rest : List Char} (lone : d ∉ word)
    (text : spell marks t = word ++ rest) :
    ∃ t', t = word.map .inl ++ t' ∧ spell marks t' = rest := by
  induction word generalizing t with
  | nil => exact ⟨t, rfl, text⟩
  | cons c word ih =>
    obtain ⟨first, later⟩ := List.ne_and_not_mem_of_not_mem_cons lone
    match t with
    | [] => cases text
    | .inl c' :: t =>
      rw [spell_char, List.cons_append, List.cons.injEq] at text
      obtain ⟨t', rfl, rest_text⟩ := ih later text.2
      exact ⟨t', by rw [text.1]; rfl, rest_text⟩
    | .inr k :: t =>
      obtain ⟨others, mark, -⟩ := apart.starts k
      rw [spell_slot, mark, List.cons_append, List.cons_append, List.cons.injEq] at text
      exact absurd text.1 first

/-- Of the templates of one text, the one with all marks in slots has the slots of all others. -/
theorem Refines.of_settled (apart : Apart marks d) (settled : Settled marks t')
    (same : spell marks t = spell marks t') : Refines marks t t' := by
  induction t' generalizing t with
  | nil =>
    match t with
    | [] => exact .nil
    | .inl c :: t => cases same
    | .inr k :: t => exact absurd (List.append_eq_nil_iff.mp same).1 (apart.ne_nil k)
  | cons piece' t' ih =>
    match piece', t with
    | .inl c', [] => cases same
    | .inl c', .inl c :: t =>
      rw [spell_char, spell_char, List.cons.injEq] at same
      obtain ⟨rfl, same⟩ := same
      exact .char c (ih settled.2 same)
    | .inl c', .inr k :: t => exact absurd ⟨_, same⟩ (settled.1 k)
    | .inr k', [] => exact absurd (List.append_eq_nil_iff.mp same.symm).1 (apart.ne_nil k')
    | .inr k', .inr k :: t =>
      obtain rfl := apart.differ k k' _ _ same
      rw [spell_slot, spell_slot] at same
      exact .slot k (ih settled (List.append_cancel_left same))
    | .inr k', .inl c :: t =>
      -- The mark starts at a character, and no slot begins before it ends.
      obtain ⟨others, mark, lone⟩ := apart.starts k'
      rw [spell_char, spell_slot, mark, List.cons_append, List.cons.injEq] at same
      obtain ⟨rfl, same⟩ := same
      obtain ⟨rest, rfl, behind⟩ := chars_of_spell apart lone same
      have refines := Refines.mark k' (ih settled behind)
      rwa [mark] at refines

/-- A text is that of one template alone whose marks are all in slots. -/
theorem settled_unique (apart : Apart marks d) (settled : Settled marks t)
    (settled' : Settled marks t') (same : spell marks t = spell marks t') : t = t' := by
  have refines := Refines.of_settled apart settled' same
  clear settled' same
  induction refines with
  | nil => rfl
  | char c _ ih => rw [ih settled.2]
  | slot k _ ih => rw [ih settled]
  | mark k _ _ =>
    have none_ := (settled_text.mp settled).1 (marks k) (List.suffix_refl _) (apart.ne_nil k) k
    exact absurd (List.prefix_append _ _) none_

end Reading

section Replacing

variable {mark content cs : List Char} {t t' : Template Unit}

theorem replaceFrom_skip (skip : Nat) :
    replaceFrom mark content skip cs = replaceFrom mark content 0 (cs.drop skip) := by
  induction cs generalizing skip with
  | nil => cases skip <;> rfl
  | cons c cs ih =>
    cases skip with
    | zero => rfl
    | succ skip => exact ih skip

theorem replaceFrom_mark (some_ : mark ≠ []) :
    replaceFrom mark content 0 (mark ++ cs) = content ++ replaceFrom mark content 0 cs := by
  obtain ⟨c, others, rfl⟩ := List.exists_cons_of_ne_nil some_
  have front : (c :: others).isPrefixOf (c :: (others ++ cs)) = true :=
    List.isPrefixOf_iff_prefix.mpr (List.prefix_append (c :: others) cs)
  rw [List.cons_append, replaceFrom, if_pos front, replaceFrom_skip, List.length_cons,
    Nat.add_sub_cancel, List.drop_left]

theorem replaceFrom_char {c : Char} (other : ¬ mark <+: c :: cs) :
    replaceFrom mark content 0 (c :: cs) = c :: replaceFrom mark content 0 cs := by
  rw [replaceFrom, if_neg (mt List.isPrefixOf_iff_prefix.mp other)]

/-- Replacing a mark fills the slots if all marks are in slots. -/
theorem replaceFrom_spell (some_ : mark ≠ []) (settled : Settled (fun _ => mark) t) :
    replaceFrom mark content 0 (spell (fun _ => mark) t) = spell (fun _ => content) t := by
  induction t with
  | nil => rfl
  | cons piece t ih =>
    cases piece with
    | inl c => rw [spell_char, replaceFrom_char (settled.1 ()), ih settled.2, spell_char]
    | inr k => rw [spell_slot, replaceFrom_mark some_, ih settled, spell_slot]

theorem exists_settled (some_ : mark ≠ []) (cs : List Char) :
    ∃ t : Template Unit, Settled (fun _ => mark) t ∧ spell (fun _ => mark) t = cs :=
  ⟨read (fun _ => mark) [()] 0 cs, read_spec (fun _ => List.mem_singleton_self _)
    (fun _ => some_) 0 cs⟩

theorem replaceFrom_self (some_ : mark ≠ []) : replaceFrom mark mark 0 cs = cs := by
  obtain ⟨t, settled, rfl⟩ := exists_settled some_ cs
  exact replaceFrom_spell some_ settled

/-- How long the text of a template gets goes by the number of its slots. -/
theorem length_spell :
    (spell (fun _ => content) t).length + t.countP Sum.isRight * mark.length =
      (spell (fun _ => mark) t).length + t.countP Sum.isRight * content.length := by
  induction t with
  | nil => simp
  | cons piece t ih =>
    cases piece with
    | inl c =>
      rw [spell_char, spell_char, List.countP_cons_of_neg (by simp), List.length_cons,
        List.length_cons]
      omega
    | inr k =>
      rw [spell_slot, spell_slot, List.countP_cons_of_pos rfl, List.length_append,
        List.length_append, Nat.add_mul, Nat.add_mul]
      omega

namespace Refines

theorem slots (h : Refines (fun _ => mark) t t') :
    t = t' ∨ t.countP Sum.isRight < t'.countP Sum.isRight := by
  induction h with
  | nil => exact .inl rfl
  | char c _ ih =>
    rw [List.countP_cons_of_neg (by simp), List.countP_cons_of_neg (by simp)]
    exact ih.imp_left (congrArg _)
  | slot _ _ ih =>
    rw [List.countP_cons_of_pos rfl, List.countP_cons_of_pos rfl]
    exact ih.imp (congrArg _) Nat.succ_lt_succ
  | @mark _ t t' _ ih =>
    have chars : (mark.map Sum.inl : Template Unit).countP Sum.isRight = 0 := by simp
    have few : t.countP Sum.isRight ≤ t'.countP Sum.isRight := by
      rcases ih with rfl | fewer
      · exact Nat.le_refl _
      · exact Nat.le_of_lt fewer
    rw [List.countP_append, chars, List.countP_cons_of_pos rfl]
    omega

theorem contents (h : Refines (fun _ => mark) t t') (as_long : content.length = mark.length)
    (same : spell (fun _ => content) t = spell (fun _ => content) t') :
    t = t' ∨ content = mark := by
  induction h with
  | nil => exact .inl rfl
  | char c _ ih =>
    rw [spell_char, spell_char, List.cons.injEq] at same
    exact (ih same.2).imp_left (congrArg _)
  | slot _ _ ih =>
    rw [spell_slot, spell_slot] at same
    exact (ih (List.append_cancel_left same)).imp_left (congrArg _)
  | mark _ _ ih =>
    rw [spell_append, spell_text, spell_slot] at same
    exact .inr (List.append_inj same as_long.symm).1.symm

/-- With another content than the mark itself, more slots make another text. -/
theorem eq_of_spell (h : Refines (fun _ => mark) t t')
    (marked : spell (fun _ => mark) t = spell (fun _ => mark) t')
    (same : spell (fun _ => content) t = spell (fun _ => content) t') :
    t = t' ∨ content = mark := by
  by_cases as_long : content.length = mark.length
  · exact h.contents as_long same
  · refine .inl (h.slots.resolve_right fun fewer => ?_)
    -- Each further slot makes the text longer or shorter by the same number of characters.
    obtain ⟨more, count⟩ := Nat.exists_eq_add_of_lt fewer
    have length := @length_spell mark content t
    have length' := @length_spell mark content t'
    rw [← same, ← marked, count, Nat.add_assoc, Nat.add_mul _ (more + 1),
      Nat.add_mul _ (more + 1)] at length'
    have lengths : (more + 1) * mark.length = (more + 1) * content.length := by omega
    exact as_long (Nat.eq_of_mul_eq_mul_left more.succ_pos lengths).symm

end Refines

/-- Replacing a mark fills the slots just if all marks are in slots or nothing changes. -/
theorem replaceFrom_spell_iff {d : Char} (apart : Apart (fun _ : Unit => mark) d) :
    replaceFrom mark content 0 (spell (fun _ => mark) t) = spell (fun _ => content) t ↔
      content = mark ∨ Settled (fun _ => mark) t := by
  have some_ := apart.ne_nil ()
  constructor
  · intro same
    obtain ⟨t', settled, text⟩ := exists_settled some_ (spell (fun _ => mark) t)
    rw [← text, replaceFrom_spell some_ settled] at same
    have refines := Refines.of_settled apart settled text.symm
    rcases refines.eq_of_spell text.symm same.symm with rfl | own
    · exact .inr settled
    · exact .inl own
  · rintro (rfl | settled)
    · exact replaceFrom_self some_
    · exact replaceFrom_spell some_ settled

end Replacing

end Template

/-- The placeholders of an argument. -/
inductive Placeholder where
  | input
  | output
  deriving DecidableEq

namespace Placeholder

/-- How a placeholder is written. -/
def mark : Placeholder → List Char
  | input => ['\x7b', 'i', 'n', 'p', 'u', 't', '\x7d']
  | output => ['\x7b', 'o', 'u', 't', 'p', 'u', 't', '\x7d']

/-- What is put in for a placeholder. -/
def value (input scratch : Path) : Placeholder → List Char
  | .input => input.text.toList
  | .output => scratch.text.toList

theorem mark_input : "\x7binput\x7d".toList = mark .input := rfl

theorem mark_output : "\x7boutput\x7d".toList = mark .output := rfl

theorem mark_apart : Template.Apart mark '\x7b' where
  starts k := by
    cases k <;> exact ⟨_, rfl, by decide⟩
  differ k k' as bs same := by
    cases k <;> cases k' <;> simp_all [mark]

end Placeholder

namespace Template

/-- An argument as a template. -/
def ofArg (arg : String) : Template Placeholder :=
  read Placeholder.mark [.input, .output] 0 arg.toList

/-- A template with the slots of one placeholder, and a text in place of the other. -/
def only (k : Placeholder) (other : List Char) : Template Placeholder → Template Unit :=
  fill fun k' => if k' = k then [.inr ()] else other.map .inl

end Template

open Template

/-- An argument with both placeholders filled in at once. -/
def fillAtOnce (input scratch : Path) (arg : String) : String :=
  String.ofList ((ofArg arg).spell (Placeholder.value input scratch))

/-- An argument with the source put in and the second placeholder left. -/
def withInput (input : Path) (arg : String) : Template Unit :=
  only .output input.text.toList (ofArg arg)

/-- Whether the second placeholder stands in an argument with the source put in only where the
argument itself has it. -/
def KeepsOutputs (input : Path) (arg : String) : Prop :=
  (withInput input arg).Settled fun _ => Placeholder.mark .output

variable {input scratch : Path} {arg : String} {t : Template Placeholder}

theorem ofArg_spec (arg : String) :
    (ofArg arg).Settled Placeholder.mark ∧ (ofArg arg).spell Placeholder.mark = arg.toList :=
  read_spec (fun k => by cases k <;> simp) Placeholder.mark_apart.ne_nil 0 arg.toList

theorem eq_ofArg (settled : t.Settled Placeholder.mark)
    (text : t.spell Placeholder.mark = arg.toList) : t = ofArg arg :=
  settled_unique Placeholder.mark_apart settled (ofArg_spec arg).1
    (text.trans (ofArg_spec arg).2.symm)

theorem only_other {k k' : Placeholder} (h : k' ≠ k) (other : List Char) :
    only k other (.inr k' :: t) = other.map .inl ++ only k other t := by
  rw [only, fill, List.flatMap_cons, Sum.elim_inr, if_neg h]
  rfl

theorem spell_only {k : Placeholder} {other word : List Char} :
    (only k other t).spell (fun _ => word) = t.spell fun k' => if k' = k then word else other := by
  rw [only, spell_fill]
  congr
  funext k'
  split
  next => exact List.append_nil word
  next => exact spell_text other

theorem spell_only_input :
    (only .input (Placeholder.mark .output) t).spell (fun _ => Placeholder.mark .input) =
      t.spell Placeholder.mark := by
  rw [spell_only]
  congr
  funext k
  cases k <;> rfl

/-- No first placeholder begins within the second. -/
theorem settled_only_input (settled : t.Settled Placeholder.mark) :
    (only .input (Placeholder.mark .output) t).Settled fun _ => Placeholder.mark .input := by
  induction t with
  | nil => trivial
  | cons piece t ih =>
    cases piece with
    | inl c =>
      have first := settled.1 .input
      rw [← spell_only_input] at first
      exact ⟨fun _ => first, ih settled.2⟩
    | inr k =>
      cases k with
      | input => exact ih settled
      | output =>
        rw [only_other (by decide), settled_text]
        refine ⟨fun end_ ends some_ _ front => ?_, ih settled⟩
        rcases List.suffix_cons_iff.mp ends with rfl | later
        · simp [Placeholder.mark, List.cons_prefix_cons] at front
        · obtain ⟨c, rest, rfl⟩ := List.exists_cons_of_ne_nil some_
          obtain rfl := (List.cons_prefix_cons.mp front).1
          exact absurd (later.subset List.mem_cons_self) (by decide)

theorem replaceFrom_input (arg : String) :
    replaceFrom (Placeholder.mark .input) input.text.toList 0 arg.toList =
      (withInput input arg).spell fun _ => Placeholder.mark .output := by
  obtain ⟨settled, text⟩ := ofArg_spec arg
  rw [← text, ← spell_only_input,
    replaceFrom_spell (Placeholder.mark_apart.ne_nil .input) (settled_only_input settled), withInput,
    spell_only, spell_only]
  congr
  funext k
  cases k <;> rfl

theorem expandArg_eq :
    expandArg input scratch arg = String.ofList (replaceFrom (Placeholder.mark .output)
      scratch.text.toList 0 ((withInput input arg).spell fun _ => Placeholder.mark .output)) := by
  rw [expandArg, replaceAll, replaceAll, Placeholder.mark_input, Placeholder.mark_output,
    String.toList_ofList, replaceFrom_input]

theorem fillAtOnce_eq :
    fillAtOnce input scratch arg =
      String.ofList ((withInput input arg).spell fun _ => scratch.text.toList) := by
  rw [fillAtOnce, withInput, spell_only]
  congr
  funext k
  cases k <;> rfl

theorem expandArg_eq_fillAtOnce_iff :
    expandArg input scratch arg = fillAtOnce input scratch arg ↔
      scratch.text = "\x7boutput\x7d" ∨ KeepsOutputs input arg := by
  rw [expandArg_eq, fillAtOnce_eq, String.ofList_inj, ← String.toList_inj, Placeholder.mark_output]
  exact replaceFrom_spell_iff (Placeholder.mark_apart.single .output)

/-- A text with neither the brace in front of a mark nor the slash in front of a source's name
reaches into no slot, whatever is written there. -/
theorem prefix_spell {content word front : List Char} (rooted : content.head? = some '/')
    (brace : '\x7b' ∉ word) (slash : '/' ∉ word) :
    word <+: front ++ (only .output content t).spell (fun _ => Placeholder.mark .output) ↔
      word <+: front ++ t.spell Placeholder.mark := by
  obtain ⟨others, rfl⟩ := List.head?_eq_some_iff.mp rooted
  induction word generalizing t front with
  | nil => exact iff_of_true List.nil_prefix List.nil_prefix
  | cons c word ih =>
    obtain ⟨no_brace, brace⟩ := List.ne_and_not_mem_of_not_mem_cons brace
    obtain ⟨no_slash, slash⟩ := List.ne_and_not_mem_of_not_mem_cons slash
    have miss {d : Char} (other : d ≠ c) (rest : List Char) : ¬ c :: word <+: d :: rest :=
      fun starts => other (List.cons_prefix_cons.mp starts).1.symm
    match front, t with
    | first :: front, t =>
      rw [List.cons_append, List.cons_append, List.cons_prefix_cons, List.cons_prefix_cons]
      exact and_congr_right fun _ => ih brace slash
    | [], [] => rfl
    | [], .inl first :: t =>
      refine List.cons_prefix_cons.trans (.trans ?_ List.cons_prefix_cons.symm)
      exact and_congr_right fun _ => @ih t [] brace slash
    | [], .inr .input :: t => exact iff_of_false (miss no_slash _) (miss no_brace _)
    | [], .inr .output :: t => exact iff_of_false (miss no_brace _) (miss no_brace _)

/-- Whether a mark begins at a character does not depend on what is in the slots behind it. -/
theorem begins_iff {content front : List Char} (rooted : content.head? = some '/')
    (some_ : front ≠ []) :
    Placeholder.mark .output <+:
        front ++ (only .output content t).spell (fun _ => Placeholder.mark .output) ↔
      Placeholder.mark .output <+: front ++ t.spell Placeholder.mark := by
  obtain ⟨c, front, rfl⟩ := List.exists_cons_of_ne_nil some_
  rw [Placeholder.mark, List.cons_append, List.cons_append, List.cons_prefix_cons,
    List.cons_prefix_cons]
  exact and_congr_right fun _ => prefix_spell rooted (by decide) (by decide)

/-- A second placeholder that is not the argument's own begins in the name of the source. -/
theorem settled_only_output_iff {content : List Char} (rooted : content.head? = some '/')
    (settled : t.Settled Placeholder.mark) :
    ((only .output content t).Settled fun _ => Placeholder.mark .output) ↔
      ∀ after : Template Placeholder, .inr .input :: after <:+ t → ∀ end_, end_ <:+ content →
        end_ ≠ [] → ¬ Placeholder.mark .output <+: end_ ++ after.spell Placeholder.mark := by
  induction t with
  | nil => exact iff_of_true trivial (by simp)
  | cons piece t ih =>
    have at_input (other : piece ≠ .inr .input) {after : Template Placeholder} :
        .inr .input :: after <:+ piece :: t ↔ .inr .input :: after <:+ t := by
      rw [List.suffix_cons_iff]
      exact or_iff_right fun same => other (List.cons.inj same).1.symm
    match piece with
    | .inl c =>
      have first : ¬ Placeholder.mark .output <+:
          [c] ++ (only .output content t).spell fun _ => Placeholder.mark .output :=
        mt (begins_iff rooted (List.cons_ne_nil c [])).mp (settled.1 .output)
      simp only [at_input nofun]
      exact (and_iff_right fun _ => first).trans (ih settled.2)
    | .inr .output =>
      simp only [at_input nofun]
      exact ih settled
    | .inr .input =>
      rw [only_other (by decide), settled_text, ih settled]
      constructor
      · rintro ⟨here_, later⟩ after slot end_ ends some_
        rcases List.suffix_cons_iff.mp slot with same | slot
        · rw [(List.cons.inj same).2]
          exact mt (begins_iff rooted some_).mpr (here_ end_ ends some_ ())
        · exact later after slot end_ ends some_
      · intro none_
        refine ⟨fun end_ ends some_ _ => ?_, fun after slot => ?_⟩
        · exact mt (begins_iff rooted some_).mp (none_ t (List.suffix_refl _) end_ ends some_)
        · exact none_ after (slot.trans (List.suffix_cons _ t))

theorem rooted_of_isAbsolute (absolute : input.isAbsolute = true) :
    input.text.toList.head? = some '/' := by
  rw [Path.isAbsolute, Path.parts_of_pieces, beq_iff_eq] at absolute
  cases text : input.text.toList with
  | nil =>
    rw [text] at absolute
    cases absolute
  | cons c cs =>
    by_cases slash : c = '/'
    · rw [slash]
      rfl
    · cases rest : cutAt '/' cs with
      | nil => exact absurd rest (cutAt_ne_nil '/' cs)
      | cons piece pieces =>
        rw [text, cutAt_cons slash rest] at absolute
        by_cases dot : c :: piece = ['.']
        · rw [dot] at absolute
          cases absolute
        · rw [partsOfPieces_plain pieces (List.cons_ne_nil c piece) dot] at absolute
          obtain ⟨_, _, named⟩ := List.mem_filterMap.mp (List.mem_of_head? absolute)
          exact absurd named partOf_ne.1

namespace CommandCompiler

theorem scratchFile_last (c : CommandCompiler) (job : Nat) :
    (c.scratchFile job).text.toList.getLast? = some 'n' := by
  have own (front : String) : (front ++ ".json").toList.getLast? = some 'n' := by
    rw [String.toList_append, List.getLast?_append]
    rfl
  have behind (front : String) :
      (front ++ (Path.ofText s!"job-{job}.json").text).toList.getLast? = some 'n' := by
    rw [Path.ofText_text, ← String.append_assoc]
    exact own _
  unfold scratchFile Path.join
  split
  next => exact own _
  next =>
    split
    next => exact behind c.scratchDir.text
    next => exact behind (c.scratchDir.text ++ "/")

/-- When the arguments of a compiler program come out as if both placeholders were filled in at
once. An argument is a template in one way. The scratch file goes in for every second placeholder
that stands there once the source is put in, and the source's name can make one where the argument
has none; the scratch file of a job is never named like the placeholder itself. With the source
named from the root such a placeholder begins in its name, and ends there or in what the argument
has behind it. -/
theorem expandArgs_at_once_iff (c : CommandCompiler) (input scratch : Path) :
    (∀ arg t, t = ofArg arg ↔
      t.Settled Placeholder.mark ∧ t.spell Placeholder.mark = arg.toList) ∧
    (∀ arg, ∃ t : Template Unit, (t.Settled fun _ => Placeholder.mark .output) ∧
      (t.spell fun _ => Placeholder.mark .output) =
        ((withInput input arg).spell fun _ => Placeholder.mark .output) ∧
      (expandArg input scratch arg).toList = t.spell fun _ => scratch.text.toList) ∧
    (c.expandArgs input scratch = c.args.map (fillAtOnce input scratch) ↔
      scratch.text = "\x7boutput\x7d" ∨ ∀ arg ∈ c.args, KeepsOutputs input arg) ∧
    (∀ job, (c.scratchFile job).text ≠ "\x7boutput\x7d") ∧
    (input.isAbsolute = true → ∀ arg, KeepsOutputs input arg ↔
      ∀ after : Template Placeholder, .inr .input :: after <:+ ofArg arg →
        ∀ end_, end_ <:+ input.text.toList → end_ ≠ [] →
          ¬ Placeholder.mark .output <+: end_ ++ after.spell Placeholder.mark) := by
  refine ⟨fun arg t => ⟨?_, fun h => eq_ofArg h.1 h.2⟩, fun arg => ?_, ?_, fun job named => ?_,
    fun absolute arg => ?_⟩
  · rintro rfl
    exact ofArg_spec arg
  · have some_ := Placeholder.mark_apart.ne_nil .output
    obtain ⟨t, settled, text⟩ := exists_settled some_
      ((withInput input arg).spell fun _ => Placeholder.mark .output)
    refine ⟨t, settled, text, ?_⟩
    rw [expandArg_eq, String.toList_ofList, ← text]
    exact replaceFrom_spell some_ settled
  · rw [expandArgs, List.map_inj_left]
    simp only [expandArg_eq_fillAtOnce_iff]
    by_cases named : scratch.text = "\x7boutput\x7d"
    · simp only [named, true_or, implies_true]
    · simp only [named, false_or]
  · have last := c.scratchFile_last job
    rw [named] at last
    cases last
  · exact settled_only_output_iff (rooted_of_isAbsolute absolute) (ofArg_spec arg).1

/-- A compiler program that is given its source alone. -/
def bareCompiler : CommandCompiler := ⟨"compiler", ["\x7binput\x7d"], .ofText "/scratch"⟩

/-- A story with a placeholder in its name. -/
def bracedStory : Path := .ofText "/story/\x7boutput\x7d.ink"

/-- The program is given another name than the story's. -/
theorem braced_story_renamed :
    bracedStory.isAbsolute = true ∧ ¬ KeepsOutputs bracedStory "\x7binput\x7d" ∧
      bareCompiler.expandArgs bracedStory (bareCompiler.scratchFile 1) ≠
        bareCompiler.args.map (fillAtOnce bracedStory (bareCompiler.scratchFile 1)) ∧
      bareCompiler.expandArgs bracedStory (bareCompiler.scratchFile 1) =
        ["/story//scratch/job-1.json.ink"] := by
  obtain ⟨-, -, at_once, own, rooted⟩ :=
    expandArgs_at_once_iff bareCompiler bracedStory (bareCompiler.scratchFile 1)
  have absolute : bracedStory.isAbsolute = true := by decide
  have taken : ¬ KeepsOutputs bracedStory "\x7binput\x7d" := by
    rw [rooted absolute]
    intro none_
    exact none_ [] ⟨[], rfl⟩ "\x7boutput\x7d.ink".toList ⟨"/story/".toList, rfl⟩
      (List.cons_ne_nil _ _) ⟨".ink".toList, rfl⟩
  refine ⟨absolute, taken, fun same => ?_, by decide +kernel⟩
  rcases at_once.mp same with named | keeps
  · exact own 1 named
  · exact taken (keeps _ (List.mem_singleton_self _))

end CommandCompiler

end StoryBuild
