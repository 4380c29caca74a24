import Mathlib.Data.List.TakeWhile
import Mathlib.Logic.ExistsUnique
import StoryBuild.Include

namespace StoryBuild

/-- What closes a block comment. -/
abbrev closer : List Char := ['*', '/']

/-- Whether a comment opens at the start of a text. -/
def OpensComment (cs : List Char) : Prop :=
  ['/', '/'] <+: cs ∨ ['/', '*'] <+: cs

/-- Whether no comment opens anywhere in a text. -/
def Plain (cs : List Char) : Prop :=
  ¬ ['/', '/'] <:+: cs ∧ ¬ ['/', '*'] <:+: cs

/-- A piece of a source text: a character of code, a line comment, which a newline ends unless it
is the last, a block comment that is closed, or one that never is. -/
inductive Piece where
  | code (c : Char)
  | line (body : List Char) (ended : Bool)
  | block (body : List Char)
  | openBlock (body : List Char)
  deriving DecidableEq

namespace Piece

/-- How a piece is written. -/
def text : Piece → List Char
  | code c => [c]
  | line body ended => '/' :: '/' :: body ++ if ended then ['\n'] else []
  | block body => '/' :: '*' :: body ++ closer
  | openBlock body => '/' :: '*' :: body

/-- What is kept of a piece. -/
def kept : Piece → List Char
  | code c => [c]
  | line _ ended => if ended then ['\n'] else []
  | block body => if '\n' ∈ body then ['\n'] else []
  | openBlock _ => []

/-- Whether a piece can stand in front of a text. Code opens no comment, a line comment reaches to
the next newline or the end, a block comment to the first closer or the end. -/
def Fits : Piece → List Char → Prop
  | code c, rest => ¬ OpensComment (c :: rest)
  | line body ended, rest => '\n' ∉ body ∧ (ended = false → rest = [])
  | block body, _ => ¬ closer <:+: body
  | openBlock body, rest => ¬ closer <:+: body ∧ rest = []

end Piece

/-- The text of some pieces. -/
def textOf (pieces : List Piece) : List Char :=
  pieces.flatMap Piece.text

/-- What is kept of some pieces. -/
def keptOf (pieces : List Piece) : List Char :=
  pieces.flatMap Piece.kept

/-- Whether each of some pieces can stand in front of those that follow. -/
def Fitting : List Piece → Prop
  | [] => True
  | piece :: rest => piece.Fits (textOf rest) ∧ Fitting rest

/-- Whether pieces are those of a text. -/
def Splits (cs : List Char) (pieces : List Piece) : Prop :=
  Fitting pieces ∧ textOf pieces = cs

instance (cs : List Char) : Decidable (OpensComment cs) :=
  inferInstanceAs (Decidable (_ ∨ _))

instance (cs : List Char) : Decidable (Plain cs) :=
  inferInstanceAs (Decidable (_ ∧ _))

instance (rest : List Char) : (piece : Piece) → Decidable (piece.Fits rest)
  | .code c => inferInstanceAs (Decidable (¬ OpensComment (c :: rest)))
  | .line body ended => inferInstanceAs (Decidable ('\n' ∉ body ∧ (ended = false → rest = [])))
  | .block body => inferInstanceAs (Decidable (¬ closer <:+: body))
  | .openBlock body => inferInstanceAs (Decidable (¬ closer <:+: body ∧ rest = []))

instance : (pieces : List Piece) → Decidable (Fitting pieces)
  | [] => isTrue trivial
  | piece :: rest =>
    have := instDecidableFitting rest
    inferInstanceAs (Decidable (piece.Fits (textOf rest) ∧ Fitting rest))

instance (cs : List Char) (pieces : List Piece) : Decidable (Splits cs pieces) :=
  inferInstanceAs (Decidable (Fitting pieces ∧ textOf pieces = cs))

theorem opensComment_cons {c : Char} {cs : List Char} :
    OpensComment (c :: cs) ↔ c = '/' ∧ (cs.head? = some '/' ∨ cs.head? = some '*') := by
  cases cs <;> simp [OpensComment, List.cons_prefix_cons, eq_comm (a := '/'), eq_comm (a := '*'),
    ← and_or_left]

theorem closer_cons {c : Char} {cs : List Char} :
    closer <:+: c :: cs ↔ c = '*' ∧ cs.head? = some '/' ∨ closer <:+: cs := by
  rw [List.infix_cons_iff]
  cases cs <;> simp [List.cons_prefix_cons, eq_comm (a := '/'), eq_comm (a := '*')]

/-- A text is plain when nothing opens at its start and the rest is plain. -/
theorem plain_cons {c : Char} {cs : List Char} :
    Plain (c :: cs) ↔ ¬ OpensComment (c :: cs) ∧ Plain cs := by
  grind [Plain, OpensComment, List.infix_cons_iff]

theorem plain_nil : Plain [] := by
  simp [Plain]

/-- A text that holds a closer has a first one. -/
theorem exists_first_closer {cs : List Char} (h : closer <:+: cs) :
    ∃ body rest, cs = body ++ (closer ++ rest) ∧ ¬ closer <:+: body := by
  induction cs with
  | nil => simp at h
  | cons c cs ih =>
    by_cases here_ : c = '*' ∧ cs.head? = some '/'
    · obtain ⟨rfl, next⟩ := here_
      obtain ⟨rest, rfl⟩ := List.head?_eq_some_iff.mp next
      exact ⟨[], rest, rfl, by simp⟩
    · obtain ⟨body, rest, rfl, first⟩ := ih ((closer_cons.mp h).resolve_left here_)
      refine ⟨c :: body, rest, rfl, fun closes => ?_⟩
      rcases closer_cons.mp closes with ⟨star, next⟩ | later
      · exact here_ ⟨star, by simp [List.head?_append, next]⟩
      · exact first later

/-- The first closer stands in one place. -/
theorem first_closer_unique {body body' rest rest' : List Char} (first : ¬ closer <:+: body)
    (first' : ¬ closer <:+: body') (same : body ++ (closer ++ rest) = body' ++ (closer ++ rest')) :
    body = body' ∧ rest = rest' := by
  induction body generalizing body' with
  | nil =>
    cases body' with
    | nil => simpa using same
    | cons c body' =>
      obtain ⟨rfl, tail⟩ := List.cons.inj same
      cases body' with
      | nil => simp at tail
      | cons d body' =>
        obtain ⟨rfl, -⟩ := List.cons.inj tail
        exact absurd (closer_cons.mpr (.inl ⟨rfl, rfl⟩)) first'
  | cons c body ih =>
    cases body' with
    | nil =>
      obtain ⟨rfl, tail⟩ := List.cons.inj same
      cases body with
      | nil => simp at tail
      | cons d body =>
        obtain ⟨rfl, -⟩ := List.cons.inj tail
        exact absurd (closer_cons.mpr (.inl ⟨rfl, rfl⟩)) first
    | cons c' body' =>
      obtain ⟨rfl, tail⟩ := List.cons.inj same
      obtain ⟨rfl, rest⟩ := ih (fun h => first (closer_cons.mpr (.inr h)))
        (fun h => first' (closer_cons.mpr (.inr h))) tail
      exact ⟨rfl, rest⟩

theorem scanComments_nil (state : ScanState) : scanComments state [] = [] := by
  cases state <;> rfl

theorem scanComments_code {c : Char} {cs : List Char} (h : ¬ OpensComment (c :: cs)) :
    scanComments .code (c :: cs) = c :: scanComments .code cs := by
  rw [opensComment_cons] at h
  rw [scanComments.eq_4]
  · rintro tail rfl rfl
    exact h ⟨rfl, .inl rfl⟩
  · rintro tail rfl rfl
    exact h ⟨rfl, .inr rfl⟩

/-- A line comment that a newline ends. -/
theorem scanComments_line {body : List Char} (one_line : '\n' ∉ body) (rest : List Char) :
    scanComments .line (body ++ '\n' :: rest) = '\n' :: scanComments .code rest := by
  induction body with
  | nil => rfl
  | cons c body ih =>
    rw [List.mem_cons, not_or] at one_line
    rw [List.cons_append, scanComments, if_neg (Ne.symm one_line.1), ih one_line.2]

/-- A line comment at the end of the text. -/
theorem scanComments_lastLine {body : List Char} (one_line : '\n' ∉ body) :
    scanComments .line body = [] := by
  induction body with
  | nil => rfl
  | cons c body ih =>
    rw [List.mem_cons, not_or] at one_line
    rw [scanComments, if_neg (Ne.symm one_line.1), ih one_line.2]

/-- Inside a block comment the scan passes over a character that does not close it. -/
theorem scanComments_inside {c : Char} {cs : List Char} (saw : Bool)
    (inside : ¬ (c = '*' ∧ cs.head? = some '/')) :
    scanComments (.block saw) (c :: cs) = scanComments (.block (saw || c = '\n')) cs := by
  have apart (tail : List Char) (star : c = '*') (next : cs = '/' :: tail) : False :=
    inside ⟨star, by rw [next]; rfl⟩
  cases saw with
  | true => exact scanComments.eq_8 true c cs (fun t _ => apart t) (fun t h => by cases h)
  | false => exact scanComments.eq_8 false c cs (fun t h => by cases h) (fun t _ => apart t)

/-- A block comment that is closed. -/
theorem scanComments_block {body : List Char} (first : ¬ closer <:+: body) (saw : Bool)
    (rest : List Char) :
    scanComments (.block saw) (body ++ (closer ++ rest)) =
      (if saw = true ∨ '\n' ∈ body then ['\n'] else []) ++ scanComments .code rest := by
  induction body generalizing saw with
  | nil => cases saw <;> rfl
  | cons c body ih =>
    rw [closer_cons, not_or] at first
    have inside : ¬ (c = '*' ∧ (body ++ (closer ++ rest)).head? = some '/') := by
      rintro ⟨star, next⟩
      cases body with
      | nil => simp at next
      | cons d body => exact first.1 ⟨star, next⟩
    rw [List.cons_append, scanComments_inside saw inside, ih first.2]
    simp [or_assoc, eq_comm (a := '\n')]

/-- A block comment that is never closed. -/
theorem scanComments_openBlock {body : List Char} (never : ¬ closer <:+: body) (saw : Bool) :
    scanComments (.block saw) body = [] := by
  induction body generalizing saw with
  | nil => exact scanComments_nil _
  | cons c body ih =>
    rw [closer_cons, not_or] at never
    rw [scanComments_inside saw never.1, ih never.2]

theorem Piece.text_ne_nil (piece : Piece) : piece.text ≠ [] := by
  cases piece <;> simp [Piece.text]

/-- A piece that opens no comment is code. -/
theorem Piece.head?_text (piece : Piece) :
    piece.text.head? = some '/' ∨ ∃ c, piece = .code c := by
  cases piece with
  | code c => exact .inr ⟨c, rfl⟩
  | line => exact .inl rfl
  | block => exact .inl rfl
  | openBlock => exact .inl rfl

theorem textOf_cons (piece : Piece) (rest : List Piece) :
    textOf (piece :: rest) = piece.text ++ textOf rest :=
  List.flatMap_cons

theorem keptOf_cons (piece : Piece) (rest : List Piece) :
    keptOf (piece :: rest) = piece.kept ++ keptOf rest :=
  List.flatMap_cons

theorem textOf_eq_nil {pieces : List Piece} : textOf pieces = [] ↔ pieces = [] := by
  cases pieces with
  | nil => simp [textOf]
  | cons piece rest => simp [textOf_cons, piece.text_ne_nil]

/-- Removing comments keeps what is kept of the pieces. -/
theorem scanComments_textOf {pieces : List Piece} (fitting : Fitting pieces) :
    scanComments .code (textOf pieces) = keptOf pieces := by
  induction pieces with
  | nil => rfl
  | cons piece rest ih =>
    obtain ⟨fits, fitting⟩ := fitting
    have later := ih fitting
    rw [textOf_cons, keptOf_cons]
    cases piece with
    | code c =>
      rw [Piece.text, Piece.kept, List.singleton_append, scanComments_code fits, later]
      rfl
    | line body ended =>
      obtain ⟨one_line, last⟩ := fits
      cases ended with
      | true =>
        change scanComments .line ((body ++ ['\n']) ++ textOf rest) = '\n' :: keptOf rest
        rw [List.append_assoc, List.singleton_append, scanComments_line one_line, later]
      | false =>
        have no_rest := textOf_eq_nil.mp (last rfl)
        subst no_rest
        change scanComments .line ((body ++ []) ++ []) = []
        rw [List.append_nil, List.append_nil, scanComments_lastLine one_line]
    | block body =>
      change scanComments (.block false) ((body ++ closer) ++ textOf rest) = _
      rw [List.append_assoc, scanComments_block fits, later]
      simp [Piece.kept]
    | openBlock body =>
      obtain ⟨never, last⟩ := fits
      have no_rest := textOf_eq_nil.mp last
      subst no_rest
      change scanComments (.block false) (body ++ []) = []
      rw [List.append_nil, scanComments_openBlock never]

namespace Piece

theorem opens_line (body : List Char) (ended : Bool) (rest : List Char) :
    OpensComment ((line body ended).text ++ rest) :=
  .inl ⟨_, rfl⟩

theorem opens_block (body rest : List Char) : OpensComment ((block body).text ++ rest) :=
  .inr ⟨_, rfl⟩

theorem opens_openBlock (body rest : List Char) : OpensComment ((openBlock body).text ++ rest) :=
  .inr ⟨_, rfl⟩

/-- A line comment ends at the first newline. -/
theorem line_unique {body body' rest rest' : List Char} {ended ended' : Bool}
    (fits : (line body ended).Fits rest) (fits' : (line body' ended').Fits rest')
    (same : (line body ended).text ++ rest = (line body' ended').text ++ rest') :
    line body ended = line body' ended' ∧ rest = rest' := by
  obtain ⟨one_line, last⟩ := fits
  obtain ⟨one_line', last'⟩ := fits'
  have front {cs : List Char} (h : '\n' ∉ cs) : ∀ c ∈ cs, decide (c ≠ '\n') = true :=
    fun c hc => decide_eq_true fun newline => h (newline ▸ hc)
  simp only [text, List.cons_append, List.cons.injEq, true_and, List.append_assoc] at same
  have bodies : body = body' := by
    have cut := congrArg (List.takeWhile (· ≠ '\n')) same
    rw [List.takeWhile_append_of_pos (front one_line),
      List.takeWhile_append_of_pos (front one_line')] at cut
    cases ended <;> cases ended' <;> simp_all
  subst bodies
  have tails := List.append_cancel_left same
  cases ended <;> cases ended' <;> simp_all

/-- Whichever piece of a text comes first, there is one. -/
theorem fits_unique {p q : Piece} {rest rest' : List Char} (fits : p.Fits rest)
    (fits' : q.Fits rest') (same : p.text ++ rest = q.text ++ rest') : p = q ∧ rest = rest' := by
  cases p with
  | code c =>
    have code_first : ¬ OpensComment (q.text ++ rest') := same ▸ fits
    cases q with
    | code d =>
      obtain ⟨rfl, tails⟩ := List.cons.inj same
      exact ⟨rfl, tails⟩
    | line body ended => exact absurd (opens_line _ _ _) code_first
    | block body => exact absurd (opens_block _ _) code_first
    | openBlock body => exact absurd (opens_openBlock _ _) code_first
  | line body ended =>
    cases q with
    | code d =>
      have opens := opens_line body ended rest
      rw [same] at opens
      exact absurd opens fits'
    | line body' ended' => exact line_unique fits fits' same
    | block | openBlock => simp [text] at same
  | block body =>
    cases q with
    | code d =>
      have opens := opens_block body rest
      rw [same] at opens
      exact absurd opens fits'
    | line => simp [text] at same
    | block body' =>
      simp only [text, List.cons_append, List.append_assoc, List.cons.injEq, true_and] at same
      obtain ⟨rfl, tails⟩ := first_closer_unique fits fits' same
      exact ⟨rfl, tails⟩
    | openBlock body' =>
      obtain ⟨never, rfl⟩ := fits'
      simp only [text, List.cons_append, List.append_assoc, List.cons.injEq, true_and,
        List.append_nil] at same
      exact absurd ⟨body, rest, by rw [← same]; simp⟩ never
  | openBlock body =>
    obtain ⟨never, rfl⟩ := fits
    cases q with
    | code d =>
      have opens := opens_openBlock body []
      rw [same] at opens
      exact absurd opens fits'
    | line => simp [text] at same
    | block body' =>
      simp only [text, List.cons_append, List.append_assoc, List.cons.injEq, true_and,
        List.append_nil] at same
      exact absurd ⟨body', rest', by rw [same]; simp⟩ never
    | openBlock body' =>
      obtain ⟨-, rfl⟩ := fits'
      simp only [text, List.append_nil, List.cons.injEq, true_and] at same
      exact ⟨by rw [same], rfl⟩

end Piece

theorem fitting_unique {pieces others : List Piece} (fitting : Fitting pieces)
    (fitting' : Fitting others) (same : textOf pieces = textOf others) : pieces = others := by
  induction pieces generalizing others with
  | nil => exact (textOf_eq_nil.mp same.symm).symm
  | cons p rest ih =>
    cases others with
    | nil => exact absurd (textOf_eq_nil.mp same) (by simp)
    | cons q rest' =>
      rw [textOf_cons, textOf_cons] at same
      obtain ⟨rfl, tails⟩ := Piece.fits_unique fitting.1 fitting'.1 same
      rw [ih fitting.2 fitting'.2 tails]

/-- A text that is not empty starts with a piece. -/
theorem exists_first_piece {cs : List Char} (some_ : cs ≠ []) :
    ∃ piece rest, Piece.Fits piece rest ∧ cs = piece.text ++ rest := by
  by_cases opens : OpensComment cs
  · rcases opens with ⟨rest, rfl⟩ | ⟨rest, rfl⟩
    · have one_line : '\n' ∉ rest.takeWhile (· ≠ '\n') := by
        intro mem
        simpa using List.mem_takeWhile_imp mem
      have whole := List.takeWhile_append_dropWhile (p := (· ≠ '\n')) (l := rest)
      cases tail : rest.dropWhile (· ≠ '\n') with
      | nil =>
        refine ⟨.line (rest.takeWhile (· ≠ '\n')) false, [], ⟨one_line, fun _ => rfl⟩, ?_⟩
        rw [tail] at whole
        simpa [Piece.text] using whole.symm
      | cons c tail' =>
        have newline : c = '\n' := by
          have stops := List.head?_dropWhile_not (· ≠ '\n') rest
          rw [tail] at stops
          simpa using stops
        subst newline
        refine ⟨.line (rest.takeWhile (· ≠ '\n')) true, tail', ⟨one_line, by simp⟩, ?_⟩
        rw [tail] at whole
        simpa [Piece.text] using whole.symm
    · by_cases closes : closer <:+: rest
      · obtain ⟨body, tail, rfl, first⟩ := exists_first_closer closes
        exact ⟨.block body, tail, first, by simp [Piece.text]⟩
      · exact ⟨.openBlock rest, [], ⟨closes, rfl⟩, by simp [Piece.text]⟩
  · obtain ⟨c, rest, rfl⟩ := List.exists_cons_of_ne_nil some_
    exact ⟨.code c, rest, opens, rfl⟩

theorem exists_splits (cs : List Char) : ∃ pieces, Splits cs pieces := by
  by_cases some_ : cs = []
  · exact ⟨[], trivial, some_.symm⟩
  · obtain ⟨piece, rest, fits, text⟩ := exists_first_piece some_
    have shorter : rest.length < cs.length := by
      rw [text, List.length_append]
      have := List.length_pos_iff.mpr piece.text_ne_nil
      omega
    obtain ⟨pieces, fitting, rest_text⟩ := exists_splits rest
    refine ⟨piece :: pieces, ⟨rest_text ▸ fits, fitting⟩, ?_⟩
    rw [textOf_cons, rest_text, text]
termination_by cs.length

theorem stripComments_of_splits {cs : List Char} {pieces : List Piece} (h : Splits cs pieces) :
    stripComments cs = keptOf pieces := by
  rw [stripComments, ← h.2, scanComments_textOf h.1]

/-- Nothing opens in front of what is kept unless something opens in front of the text. -/
theorem head?_keptOf {pieces : List Piece} (h : (textOf pieces).head? ≠ some '/') :
    (keptOf pieces).head? = (textOf pieces).head? := by
  cases pieces with
  | nil => rfl
  | cons piece rest =>
    rw [textOf_cons, List.head?_append] at h
    obtain ⟨c, rfl⟩ := piece.head?_text.resolve_left fun slash => h (by rw [slash]; rfl)
    rfl

theorem plain_newline {cs : List Char} (h : Plain cs) : Plain ('\n' :: cs) :=
  plain_cons.mpr ⟨by simp [opensComment_cons], h⟩

theorem plain_keptOf {pieces : List Piece} (fitting : Fitting pieces) : Plain (keptOf pieces) := by
  induction pieces with
  | nil => exact plain_nil
  | cons piece rest ih =>
    obtain ⟨fits, fitting⟩ := fitting
    have later := ih fitting
    rw [keptOf_cons]
    cases piece with
    | code c =>
      refine plain_cons.mpr ⟨fun opens => ?_, later⟩
      -- After a slash the text goes on with code, and so does what is kept.
      obtain ⟨slash, next⟩ := opensComment_cons.mp opens
      have no_next := not_or.mp fun h => fits (opensComment_cons.mpr ⟨slash, h⟩)
      change (keptOf rest).head? = _ ∨ (keptOf rest).head? = _ at next
      rw [head?_keptOf no_next.1] at next
      exact next.elim no_next.1 no_next.2
    | line body ended =>
      cases ended with
      | true => exact plain_newline later
      | false => exact later
    | block body =>
      rw [Piece.kept]
      split
      next => exact plain_newline later
      next => exact later
    | openBlock body => exact later

theorem plain_stripComments (cs : List Char) : Plain (stripComments cs) := by
  obtain ⟨pieces, splits⟩ := exists_splits cs
  rw [stripComments_of_splits splits]
  exact plain_keptOf splits.1

/-- A plain text has no comments to remove. -/
theorem Plain.stripComments {cs : List Char} (h : Plain cs) : stripComments cs = cs := by
  induction cs with
  | nil => exact scanComments_nil _
  | cons c cs ih =>
    obtain ⟨code_first, later⟩ := plain_cons.mp h
    rw [StoryBuild.stripComments, scanComments_code code_first]
    exact congrArg (c :: ·) (ih later)

/-- Every text splits in one way into code and comments, and removing the comments keeps the code
and the newlines of comments. The result is plain, so removing them again changes nothing. -/
theorem stripComments_keeps_code (cs : List Char) :
    (∃! pieces, Splits cs pieces) ∧
      (∀ pieces, Splits cs pieces → stripComments cs = keptOf pieces) ∧
      Plain (stripComments cs) ∧ stripComments (stripComments cs) = stripComments cs := by
  obtain ⟨pieces, splits⟩ := exists_splits cs
  refine ⟨⟨pieces, splits, fun others h => ?_⟩, fun _ => stripComments_of_splits,
    plain_stripComments cs, (plain_stripComments cs).stripComments⟩
  exact fitting_unique h.1 splits.1 (h.2.trans splits.2.symm)

/-- A star that opens a comment does not close it, and a line comment opens no block. -/
example : stripComments "a/*/\n*/b//*\nc/".toList = ['a', '\n', 'b', '\n', 'c', '/'] := by
  decide

end StoryBuild
