import StoryBuild.Proofs.Comments
import StoryBuild.Proofs.PathParts
import StoryBuild.Proofs.Trimming

namespace StoryBuild

/-- The word that starts an include line. -/
def includeWord : List Char := ['I', 'N', 'C', 'L', 'U', 'D', 'E']

theorem includeWord_eq : "INCLUDE".toList = includeWord := rfl

/-- Whether a line is an include line for a name: but for blanks around it, it is the keyword, some
blanks and the name. -/
def NamesFile (line name : List Char) : Prop :=
  name ≠ [] ∧ IsTrimmed name ∧
    ∃ gap, gap ≠ [] ∧ AllBlank gap ∧ trim line = includeWord ++ (gap ++ name)

/-- Whether a text ends inside a block comment. -/
def LeftOpen (cs : List Char) : Prop :=
  ∃ pieces body, Splits cs pieces ∧ .openBlock body ∈ pieces

theorem trim_includeLine {lead gap name tail : List Char} (front : AllBlank lead)
    (trimmed : IsTrimmed name) (some_ : name ≠ []) (behind : AllBlank tail) :
    trim (lead ++ (includeWord ++ (gap ++ (name ++ tail)))) = includeWord ++ (gap ++ name) := by
  have solid : IsTrimmed (includeWord ++ (gap ++ name)) := by
    rw [← List.append_assoc]
    exact trimmed.append_left some_ (by decide) _
  rw [← solid.trim_append front behind]
  simp

/-- A line is read as an include just when it is an include line. -/
theorem includeOfLine_eq_some {line : List Char} {raw : String} :
    includeOfLine line = some raw ↔ NamesFile line raw.toList := by
  constructor
  · intro h
    rw [includeOfLine, includeWord_eq] at h
    split at h
    next c rest start =>
      dsimp only at h
      split at h
      next named =>
        obtain rfl := Option.some.inj h
        obtain ⟨lead, front, whole⟩ := exists_trimStart line
        obtain ⟨more, tail, between, behind, text⟩ := exists_trim rest
        rw [String.toList_ofList]
        refine ⟨named.2, trim_trim rest, c :: more, by simp,
          List.forall_mem_cons.mpr ⟨named.1, between⟩, ?_⟩
        rw [← trim_includeLine front (trim_trim rest) named.2 behind, List.cons_append, ← text,
          ← dropLead_eq_some.mp start, ← whole]
      next => cases h
    next => cases h
  · rintro ⟨some_, trimmed, gap, space, between, text⟩
    obtain ⟨lead, tail, front, behind, whole⟩ := exists_trim line
    obtain ⟨c, gap, rfl⟩ := List.exists_cons_of_ne_nil space
    obtain ⟨blank, between⟩ := List.forall_mem_cons.mp between
    have start : trimStart line = includeWord ++ (c :: (gap ++ (raw.toList ++ tail))) := by
      rw [whole, trimStart_append front, text, List.append_assoc, List.append_assoc]
      exact trimStart_cons (by decide) _
    rw [includeOfLine, includeWord_eq, start, dropLead_append]
    dsimp only
    rw [trimmed.trim_append between behind, if_pos ⟨blank, some_⟩, String.ofList_toList]

/-- Blanks at the end of a line are no matter. -/
theorem includeOfLine_append (line : List Char) {blanks : List Char} (blank : AllBlank blanks) :
    includeOfLine (line ++ blanks) = includeOfLine line := by
  ext raw
  rw [includeOfLine_eq_some, includeOfLine_eq_some, NamesFile, trim_append_blank line blank]
  rfl

theorem includeOfLine_dropReturn (line : List Char) :
    includeOfLine (dropReturn line) = includeOfLine line := by
  unfold dropReturn
  split
  next ends =>
    obtain ⟨front, rfl⟩ := List.getLast?_eq_some_iff.mp ends
    rw [List.dropLast_concat, includeOfLine_append front (by simp [AllBlank]; decide)]
  next => rfl

/-- How lines end is no matter to their includes. -/
theorem includesOf_eq (text : String) : includesOf text =
    (cutAt '\n' (stripComments text.toList)).filterMap includeOfLine := by
  unfold includesOf linesOf
  generalize pieces_eq : cutAt '\n' (stripComments text.toList) = pieces
  obtain ⟨front, last, rfl⟩ : ∃ front last, pieces = front ++ [last] :=
    ⟨_, _, (List.dropLast_concat_getLast (pieces_eq ▸ cutAt_ne_nil _ _)).symm⟩
  have ended : (front.map dropReturn).filterMap includeOfLine = front.filterMap includeOfLine := by
    rw [List.filterMap_map]
    exact List.filterMap_congr fun line _ => includeOfLine_dropReturn line
  have blank : includeOfLine [] = none := rfl
  simp only [List.dropLast_concat, List.getLast?_concat]
  cases last with
  | nil => simp [ended, blank]
  | cons c rest => simp [ended]

/-- A newline outside of block comments cuts a text into two that are read alone. -/
theorem scanComments_newline {pieces : List Piece} (fitting : Fitting pieces)
    (closed : ∀ body, .openBlock body ∉ pieces) (rest : List Char) :
    scanComments .code (textOf pieces ++ '\n' :: rest) =
      keptOf pieces ++ '\n' :: scanComments .code rest := by
  induction pieces with
  | nil => rfl
  | cons piece pieces ih =>
    obtain ⟨fits, fitting⟩ := fitting
    have later := ih fitting fun body mem => closed body (List.mem_cons_of_mem _ mem)
    rw [textOf_cons, keptOf_cons, List.append_assoc, List.append_assoc]
    cases piece with
    | code c =>
      have code_first : ¬ OpensComment (c :: (textOf pieces ++ '\n' :: rest)) := by
        intro opens
        obtain ⟨slash, next⟩ := opensComment_cons.mp opens
        refine fits (opensComment_cons.mpr ⟨slash, ?_⟩)
        rw [List.head?_append] at next
        cases text : (textOf pieces).head? <;> simp_all
      change scanComments .code (c :: (textOf pieces ++ '\n' :: rest)) = _
      rw [scanComments_code code_first, later]
      rfl
    | line body ended =>
      obtain ⟨one_line, last⟩ := fits
      cases ended with
      | true =>
        change scanComments .line ((body ++ ['\n']) ++ _) = _
        rw [List.append_assoc, List.singleton_append, scanComments_line one_line, later]
        rfl
      | false =>
        have no_pieces := textOf_eq_nil.mp (last rfl)
        subst no_pieces
        change scanComments .line ((body ++ []) ++ '\n' :: rest) = _
        rw [List.append_nil, scanComments_line one_line]
        rfl
    | block body =>
      change scanComments (.block false) ((body ++ closer) ++ _) = _
      rw [List.append_assoc, scanComments_block fits, later]
      simp [Piece.kept]
    | openBlock body => exact absurd List.mem_cons_self (closed body)

theorem stripComments_newline {as : List Char} (closed : ¬ LeftOpen as) (bs : List Char) :
    stripComments (as ++ '\n' :: bs) = stripComments as ++ '\n' :: stripComments bs := by
  obtain ⟨pieces, splits⟩ := exists_splits as
  rw [stripComments_of_splits splits, stripComments, ← splits.2]
  exact scanComments_newline splits.1 (fun body mem => closed ⟨pieces, body, splits, mem⟩) bs

theorem includesOf_newline {a : String} (closed : ¬ LeftOpen a.toList) (b : String) :
    includesOf (a ++ "\n" ++ b) = includesOf a ++ includesOf b := by
  have text : (a ++ "\n" ++ b).toList = a.toList ++ '\n' :: b.toList := by simp
  rw [includesOf_eq, includesOf_eq, includesOf_eq, text, stripComments_newline closed, cutAt_append,
    List.filterMap_append]

/-- No comment opens where a text is put behind another, unless its first character takes part. -/
theorem Plain.append {as bs : List Char} (h : Plain as) (h' : Plain bs)
    (apart : bs.head? ≠ some '/' ∧ bs.head? ≠ some '*') : Plain (as ++ bs) := by
  induction as with
  | nil => exact h'
  | cons a as ih =>
    obtain ⟨code_first, later⟩ := plain_cons.mp h
    refine plain_cons.mpr ⟨fun opens => ?_, ih later⟩
    obtain ⟨slash, next⟩ := opensComment_cons.mp opens
    refine code_first (opensComment_cons.mpr ⟨slash, ?_⟩)
    cases as with
    | nil => exact absurd next (not_or.mpr apart)
    | cons b as => exact next

theorem Plain.append_left {as bs : List Char} (no_slash : '/' ∉ as) (h : Plain bs) :
    Plain (as ++ bs) := by
  induction as with
  | nil => exact h
  | cons a as ih =>
    rw [List.mem_cons, not_or] at no_slash
    refine plain_cons.mpr ⟨fun opens => ?_, ih no_slash.2⟩
    exact no_slash.1 (opensComment_cons.mp opens).1.symm

theorem plain_gather {lines : List (List Char)} (h : ∀ line ∈ lines, Plain line) :
    Plain (gather '\n' lines) := by
  induction lines with
  | nil => exact plain_nil
  | cons line rest ih =>
    have first := h line (by simp)
    have others := ih fun l hl => h l (by simp [hl])
    cases rest with
    | nil => exact first
    | cons next rest => exact first.append (plain_newline others) (by simp)

/-- Lines without comments are read one by one. -/
theorem includesOf_gather {lines : List (List Char)} (plain : ∀ line ∈ lines, Plain line)
    (one_line : ∀ line ∈ lines, '\n' ∉ line) :
    includesOf (String.ofList (gather '\n' lines)) = lines.filterMap includeOfLine := by
  rw [includesOf_eq, String.toList_ofList, (plain_gather plain).stripComments]
  by_cases some_ : lines = []
  · subst some_
    rfl
  · rw [cutAt_gather some_ one_line]

theorem AllBlank.not_mem {cs : List Char} (h : AllBlank cs) {c : Char}
    (solid : isBlank c = false) : c ∉ cs := by
  intro mem
  rw [h c mem] at solid
  cases solid

/-- Blanks do not open a comment. -/
theorem AllBlank.plain {cs : List Char} (h : AllBlank cs) : Plain cs :=
  List.append_nil cs ▸ Plain.append_left (h.not_mem (by decide)) plain_nil

/-- A line of a source text: an include line, or any other. -/
inductive SourceLine where
  | names (lead gap name tail : List Char)
  | other (text : List Char)

namespace SourceLine

/-- How a line is written. -/
def text : SourceLine → List Char
  | names lead gap name tail => lead ++ (includeWord ++ (gap ++ (name ++ tail)))
  | other text => text

/-- The file that a line names. -/
def name? : SourceLine → Option String
  | names _ _ name _ => some (String.ofList name)
  | other _ => none

/-- Whether a line is as it says, stands on one line and opens no comment. -/
def Sound : SourceLine → Prop
  | names lead gap name tail =>
    (AllBlank lead ∧ '\n' ∉ lead) ∧ (AllBlank gap ∧ '\n' ∉ gap ∧ gap ≠ []) ∧
      (IsTrimmed name ∧ '\n' ∉ name ∧ name ≠ [] ∧ Plain name) ∧ AllBlank tail ∧ '\n' ∉ tail
  | other text => '\n' ∉ text ∧ Plain text ∧ ∀ name, ¬ NamesFile text name

end SourceLine

namespace SourceLine

variable {l : SourceLine}

theorem Sound.one_line (h : l.Sound) : '\n' ∉ l.text := by
  cases l with
  | names lead gap name tail =>
    obtain ⟨⟨-, lead⟩, ⟨-, gap, -⟩, ⟨-, name, -, -⟩, -, tail⟩ := h
    have word : '\n' ∉ includeWord := by decide
    simp only [text, List.mem_append]
    tauto
  | other text => exact h.1

theorem Sound.plain (h : l.Sound) : Plain l.text := by
  cases l with
  | names lead gap name tail =>
    obtain ⟨⟨front, -⟩, ⟨between, -, -⟩, ⟨-, -, -, plain⟩, behind, -⟩ := h
    have seam {c : Char} (solid : isBlank c = false) : tail.head? ≠ some c :=
      fun first => behind.not_mem solid (List.mem_of_head? first)
    refine Plain.append_left (front.not_mem (by decide)) (Plain.append_left (by decide) ?_)
    refine Plain.append_left (between.not_mem (by decide)) (plain.append behind.plain ?_)
    exact ⟨seam (by decide), seam (by decide)⟩
  | other text => exact h.2.1

/-- A line is read as what it says. -/
theorem Sound.includeOfLine (h : l.Sound) : includeOfLine l.text = l.name? := by
  cases l with
  | names lead gap name tail =>
    obtain ⟨⟨lead, -⟩, ⟨gap, -, space⟩, ⟨trimmed, -, some_, -⟩, tail, -⟩ := h
    refine includeOfLine_eq_some.mpr ?_
    rw [String.toList_ofList]
    exact ⟨some_, trimmed, _, space, gap, trim_includeLine lead trimmed some_ tail⟩
  | other text =>
    refine Option.eq_none_iff_forall_ne_some.mpr fun raw named => ?_
    exact h.2.2 _ (includeOfLine_eq_some.mp named)

end SourceLine

/-- A text without a block comment left open and what follows on the next line are read one after
the other. An include line includes what it names, so lines without comments include what they
name, in order. -/
theorem includesOf_line_by_line :
    (∀ a b : String, ¬ LeftOpen a.toList →
      includesOf (a ++ "\n" ++ b) = includesOf a ++ includesOf b) ∧
    (∀ lead gap name : List Char, (SourceLine.names lead gap name []).Sound →
      includesOf (String.ofList (lead ++ ("INCLUDE".toList ++ (gap ++ name)))) =
        [String.ofList name]) ∧
    ∀ lines : List SourceLine, (∀ l ∈ lines, l.Sound) →
      includesOf (String.ofList (gather '\n' (lines.map SourceLine.text))) =
        lines.filterMap SourceLine.name? := by
  have many (lines : List SourceLine) (sound : ∀ l ∈ lines, l.Sound) :
      includesOf (String.ofList (gather '\n' (lines.map SourceLine.text))) =
        lines.filterMap SourceLine.name? := by
    rw [includesOf_gather, List.filterMap_map]
    · exact List.filterMap_congr fun l hl => (sound l hl).includeOfLine
    · exact List.forall_mem_map.mpr fun l hl => (sound l hl).plain
    · exact List.forall_mem_map.mpr fun l hl => (sound l hl).one_line
  refine ⟨fun a b closed => includesOf_newline closed b, fun lead gap name sound => ?_, many⟩
  have one := many [.names lead gap name []] (by simpa using sound)
  simpa [gather, SourceLine.text, SourceLine.name?, includeWord_eq] using one

/-- A block comment that is closed again, and an opener in a line comment. -/
theorem half_commented_text_read :
    ¬ LeftOpen "/*\n*/x//*".toList ∧
      includesOf ("/*\n*/x//*" ++ "\n" ++ "\tINCLUDE b c/") = ["b c/"] := by
  obtain ⟨lines, one, -⟩ := includesOf_line_by_line
  have known : Splits "/*\n*/x//*".toList [.block ['\n'], .code 'x', .line ['*'] false] := by decide
  have closed : ¬ LeftOpen "/*\n*/x//*".toList := by
    rintro ⟨pieces, body, splits, mem⟩
    rw [fitting_unique splits.1 known.1 (splits.2.trans known.2.symm)] at mem
    simp at mem
  have first : includesOf "/*\n*/x//*" = [] := by decide
  refine ⟨closed, ?_⟩
  rw [lines _ _ closed, first]
  exact one ['\t'] [' '] "b c/".toList (by unfold SourceLine.Sound; decide)

end StoryBuild
