import StoryBuild.Proofs.DiagnosticLines
import StoryBuild.Proofs.IncludeLines

namespace StoryBuild

/-- A pattern for the start of a text. -/
inductive Pattern where
  /-- A given text. -/
  | word (text : List Char)
  /-- One character of a kind. -/
  | one (kind : Char → Bool)
  /-- Any number of characters of a kind, the most first. -/
  | many (kind : Char → Bool)
  /-- Any number of characters of a kind, the fewest first. -/
  | few (kind : Char → Bool)
  /-- Two patterns, one behind the other. -/
  | both (p q : Pattern)
  /-- One of two patterns, the first one first. -/
  | either (p q : Pattern)
  /-- A pattern whose text is noted under a number. -/
  | group (n : Nat) (p : Pattern)
  /-- The end of the text. -/
  | finish

namespace Pattern

/-- The texts that are noted in a match. -/
abbrev Groups := List (Nat × List Char)

/-- A way to match the start of a text: the text that is matched, what is noted of it, and the text
that is left. -/
structure Way where
  text : List Char
  groups : Groups
  rest : List Char

/-- One match behind another. -/
def Way.andThen (w v : Way) : Way :=
  ⟨w.text ++ v.text, w.groups ++ v.groups, v.rest⟩

/-- The ways to match any number of characters of a kind, the fewest first. -/
def cuts (kind : Char → Bool) : List Char → List Way
  | [] => [⟨[], [], []⟩]
  | c :: cs =>
    ⟨[], [], c :: cs⟩ ::
      if kind c then (cuts kind cs).map fun w => { w with text := c :: w.text } else []

/-- The ways in which a pattern matches the start of a text, in the order in which they are
tried. -/
def ways : Pattern → List Char → List Way
  | word text, cs => (dropLead text cs).toList.map fun rest => ⟨text, [], rest⟩
  | one _, [] => []
  | one kind, c :: cs => if kind c then [⟨[c], [], cs⟩] else []
  | many kind, cs => (cuts kind cs).reverse
  | few kind, cs => cuts kind cs
  | both p q, cs => (p.ways cs).flatMap fun w => (q.ways w.rest).map w.andThen
  | either p q, cs => p.ways cs ++ q.ways cs
  | group n p, cs => (p.ways cs).map fun w => { w with groups := (n, w.text) :: w.groups }
  | finish, cs => if cs = [] then [⟨[], [], []⟩] else []

/-- What is noted in the first way to match a text. -/
def first? (p : Pattern) (cs : List Char) : Option Groups :=
  (p.ways cs).head?.map Way.groups

/-- Patterns in a row. -/
def row : List Pattern → Pattern
  | [] => word []
  | p :: ps => both p (row ps)

/-- At least one character of a kind, the most first. -/
def oneOrMore (kind : Char → Bool) : Pattern :=
  both (one kind) (many kind)

/-- A pattern, or nothing. -/
def optional (p : Pattern) : Pattern :=
  either p (word [])

/-- Whether a character may stand on a line. -/
def onLine (c : Char) : Bool :=
  c ≠ '\n'

/-- Whether a pattern matches just some texts, all where they stand, and notes nothing. -/
def MatchesJust (p : Pattern) (fits : List Char → Prop) : Prop :=
  ∀ cs w, w ∈ p.ways cs ↔ fits w.text ∧ w.groups = [] ∧ cs = w.text ++ w.rest

/-- Whether a pattern matches the start of a text in some way that has these notes and leaves this
text. -/
def Matches (p : Pattern) (cs : List Char) (groups : Groups) (rest : List Char) : Prop :=
  ∃ text, ⟨text, groups, rest⟩ ∈ p.ways cs

section Ways

variable {p q : Pattern} {kind : Char → Bool} {cs : List Char} {w : Way}

theorem mem_one : w ∈ (one kind).ways cs ↔
    ∃ c, kind c = true ∧ w.text = [c] ∧ w.groups = [] ∧ cs = c :: w.rest := by
  obtain ⟨t, gs, r⟩ := w
  cases cs with
  | nil => simp [ways]
  | cons d cs =>
    simp only [ways, List.cons.injEq]
    constructor
    · intro mem
      split at mem
      next fits =>
        obtain ⟨rfl, rfl, rfl⟩ := Way.mk.inj (List.mem_singleton.mp mem)
        exact ⟨d, fits, rfl, rfl, rfl, rfl⟩
      next => cases mem
    · rintro ⟨c, fits, rfl, rfl, rfl, rfl⟩
      simp [fits]

theorem mem_cuts : w ∈ cuts kind cs ↔
    (∀ c ∈ w.text, kind c = true) ∧ w.groups = [] ∧ cs = w.text ++ w.rest := by
  constructor
  · intro mem
    induction cs generalizing w with
    | nil =>
      rw [List.mem_singleton.mp mem]
      simp
    | cons c cs ih =>
      rcases List.mem_cons.mp mem with rfl | mem
      · simp
      · split at mem
        next fits =>
          obtain ⟨v, more, rfl⟩ := List.mem_map.mp mem
          obtain ⟨all, plain, rfl⟩ := ih more
          exact ⟨List.forall_mem_cons.mpr ⟨fits, all⟩, plain, rfl⟩
        next => cases mem
  · obtain ⟨t, gs, r⟩ := w
    rintro ⟨all, rfl, rfl⟩
    induction t with
    | nil => cases r <;> simp [cuts]
    | cons c t ih =>
      obtain ⟨fits, all⟩ := List.forall_mem_cons.mp all
      rw [List.cons_append, cuts, if_pos fits]
      exact List.mem_cons_of_mem _ (List.mem_map.mpr ⟨_, ih all, rfl⟩)

theorem mem_both : w ∈ (both p q).ways cs ↔
    ∃ u ∈ p.ways cs, ∃ v ∈ q.ways u.rest, u.andThen v = w := by
  simp [ways]

theorem mem_finish : w ∈ finish.ways cs ↔ w = ⟨[], [], []⟩ ∧ cs = [] := by
  simp [ways, and_comm]

theorem word_just (text : List Char) : (word text).MatchesJust (· = text) := by
  rintro cs ⟨t, gs, r⟩
  simp only [ways, List.mem_map, Option.mem_toList, dropLead_eq_some, Way.mk.injEq]
  constructor
  · rintro ⟨rest, rfl, rfl, rfl, rfl⟩
    exact ⟨rfl, rfl, rfl⟩
  · rintro ⟨rfl, rfl, rfl⟩
    exact ⟨r, rfl, rfl, rfl, rfl⟩

theorem many_just (kind : Char → Bool) :
    (many kind).MatchesJust fun text => ∀ c ∈ text, kind c = true :=
  fun _ _ => List.mem_reverse.trans mem_cuts

theorem oneOrMore_just (kind : Char → Bool) :
    (oneOrMore kind).MatchesJust fun text => text ≠ [] ∧ ∀ c ∈ text, kind c = true := by
  intro cs w
  rw [oneOrMore, mem_both]
  constructor
  · rintro ⟨u, first, v, more, rfl⟩
    obtain ⟨c, fits, text, groups, rfl⟩ := mem_one.mp first
    obtain ⟨all, plain, rest⟩ := (many_just kind _ _).mp more
    simpa [Way.andThen, text, groups, plain, rest, fits] using all
  · obtain ⟨t, gs, r⟩ := w
    rintro ⟨⟨some_, all⟩, rfl, rfl⟩
    obtain ⟨c, t, rfl⟩ := List.exists_cons_of_ne_nil some_
    obtain ⟨fits, all⟩ := List.forall_mem_cons.mp all
    exact ⟨⟨[c], [], t ++ r⟩, mem_one.mpr ⟨c, fits, rfl, rfl, rfl⟩, ⟨t, [], r⟩,
      (many_just kind _ _).mpr ⟨all, rfl, rfl⟩, rfl⟩

theorem MatchesJust.either {fits fits' : List Char → Prop} (h : p.MatchesJust fits)
    (h' : q.MatchesJust fits') : (either p q).MatchesJust fun text => fits text ∨ fits' text := by
  intro cs w
  rw [ways, List.mem_append, h cs w, h' cs w, or_and_right]

end Ways

section Rows

variable {p : Pattern} {ps : List Pattern} {kind : Char → Bool} {cs text rest : List Char} {n : Nat}
  {groups : Groups} {fits : List Char → Prop}

theorem matches_nil : (row []).Matches cs groups rest ↔ groups = [] ∧ cs = rest := by
  simp [Matches, row, word_just _ _ _]

theorem matches_cons : (row (p :: ps)).Matches cs groups rest ↔
    ∃ w ∈ p.ways cs, ∃ more, (row ps).Matches w.rest more rest ∧ groups = w.groups ++ more := by
  constructor
  · rintro ⟨text, mem⟩
    obtain ⟨w, first, v, second, whole⟩ := mem_both.mp mem
    cases whole
    exact ⟨w, first, v.groups, ⟨v.text, second⟩, rfl⟩
  · rintro ⟨w, first, more, ⟨text, second⟩, rfl⟩
    exact ⟨w.text ++ text, mem_both.mpr ⟨w, first, _, second, rfl⟩⟩

/-- A text that is not noted, in front of a row. -/
theorem MatchesJust.next (h : p.MatchesJust fits) : (row (p :: ps)).Matches cs groups rest ↔
    ∃ text left, fits text ∧ cs = text ++ left ∧ (row ps).Matches left groups rest := by
  rw [matches_cons]
  constructor
  · rintro ⟨w, first, more, second, rfl⟩
    obtain ⟨fitting, plain, whole⟩ := (h cs w).mp first
    exact ⟨w.text, w.rest, fitting, whole, by rwa [plain]⟩
  · rintro ⟨text, left, fitting, whole, second⟩
    exact ⟨⟨text, [], left⟩, (h _ _).mpr ⟨fitting, rfl, whole⟩, groups, second, rfl⟩

/-- A text that is noted, in front of a row. -/
theorem MatchesJust.noted (h : p.MatchesJust fits) :
    (row (group n p :: ps)).Matches cs groups rest ↔
      ∃ text left more, fits text ∧ cs = text ++ left ∧ (row ps).Matches left more rest ∧
        groups = (n, text) :: more := by
  rw [matches_cons]
  constructor
  · rintro ⟨w, first, more, second, rfl⟩
    obtain ⟨u, inner, rfl⟩ := List.mem_map.mp first
    obtain ⟨fitting, plain, whole⟩ := (h cs u).mp inner
    exact ⟨u.text, u.rest, more, fitting, whole, second, by rw [plain]; rfl⟩
  · rintro ⟨text, left, more, fitting, whole, second, rfl⟩
    have inner := (h cs ⟨text, [], left⟩).mpr ⟨fitting, rfl, whole⟩
    exact ⟨_, List.mem_map.mpr ⟨_, inner, rfl⟩, more, second, rfl⟩

theorem matches_finish :
    (row [finish]).Matches cs groups rest ↔ groups = [] ∧ cs = [] ∧ rest = [] := by
  rw [matches_cons]
  constructor
  · rintro ⟨w, first, more, second, rfl⟩
    obtain ⟨rfl, rfl⟩ := mem_finish.mp first
    obtain ⟨rfl, rfl⟩ := matches_nil.mp second
    exact ⟨rfl, rfl, rfl⟩
  · rintro ⟨rfl, rfl, rfl⟩
    exact ⟨_, mem_finish.mpr ⟨rfl, rfl⟩, [], matches_nil.mpr ⟨rfl, rfl⟩, rfl⟩

theorem first?_eq_none {p : Pattern} :
    p.first? cs = none ↔ ∀ groups rest, ¬ p.Matches cs groups rest := by
  rw [first?, Option.map_eq_none_iff, List.head?_eq_none_iff, List.eq_nil_iff_forall_not_mem]
  exact ⟨fun none_ groups rest ⟨text, mem⟩ => none_ _ mem,
    fun none_ w mem => none_ w.groups w.rest ⟨w.text, mem⟩⟩

theorem matches_of_first? {p : Pattern} (first : p.first? cs = some groups) :
    ∃ rest, p.Matches cs groups rest := by
  obtain ⟨w, head, rfl⟩ := Option.map_eq_some_iff.mp first
  exact ⟨w.rest, w.text, List.mem_of_head? head⟩

end Rows

section First

variable {β : Type} {p q : Pattern} {kind : Char → Bool} {cs : List Char} {n : Nat}
  {k : Groups → List Char → Option β} {found : Option β}

/-- What is found behind the first way to match behind which something is found. What is found there
depends on the notes and on the text that is left. -/
def find (p : Pattern) (cs : List Char) (k : Groups → List Char → Option β) : Option β :=
  (p.ways cs).findSome? fun w => k w.groups w.rest

theorem first?_eq (p : Pattern) (cs : List Char) : p.first? cs = p.find cs fun gs _ => some gs := by
  rw [first?, find]
  cases p.ways cs <;> rfl

theorem find_both (p q : Pattern) (cs : List Char) (k : Groups → List Char → Option β) :
    (both p q).find cs k =
      p.find cs fun gs rest => q.find rest fun gs' rest' => k (gs ++ gs') rest' := by
  rw [find, find, ways]
  induction p.ways cs with
  | nil => rfl
  | cons w others ih =>
    rw [List.flatMap_cons, List.findSome?_append, ih, List.findSome?_map, List.findSome?_cons]
    change (q.find w.rest fun gs' rest' => k (w.groups ++ gs') rest').or _ = _
    cases q.find w.rest fun gs' rest' => k (w.groups ++ gs') rest' <;> rfl

theorem find_row (ps qs : List Pattern) (cs : List Char) (k : Groups → List Char → Option β) :
    (row (ps ++ qs)).find cs k =
      (row ps).find cs fun gs rest => (row qs).find rest fun gs' rest' => k (gs ++ gs') rest' := by
  induction ps generalizing cs k with
  | nil => simp [row, find, ways, dropLead]
  | cons p ps ih =>
    rw [List.cons_append, row, row, find_both, find_both]
    simp only [ih, List.append_assoc]

theorem find_alone (p : Pattern) (cs : List Char) (k : Groups → List Char → Option β) :
    (row [p]).find cs k = p.find cs k := by
  rw [row, find_both]
  simp [row, find, ways, dropLead]

theorem find_optional (p : Pattern) (cs : List Char) (k : Groups → List Char → Option β) :
    (optional p).find cs k = (p.find cs k).or (k [] cs) := by
  simp [find, optional, ways, dropLead, List.findSome?_append]

theorem find_none (never : ∀ gs rest, p.Matches cs gs rest → k gs rest = none) :
    p.find cs k = none :=
  List.findSome?_eq_none_iff.mpr fun w mem => never w.groups w.rest ⟨w.text, mem⟩

/-- What is found does not depend on the way if it is the same behind all ways. -/
theorem find_same {groups : Groups} {rest : List Char} (way : p.Matches cs groups rest)
    (same : ∀ gs rest, p.Matches cs gs rest → k gs rest = found) : p.find cs k = found := by
  cases found with
  | none => exact find_none same
  | some b =>
    obtain ⟨text, mem⟩ := way
    have start : (p.find cs k).isSome = true :=
      List.findSome?_isSome_iff.mpr ⟨_, mem, by rw [same groups rest ⟨text, mem⟩]; rfl⟩
    obtain ⟨b', first⟩ := Option.isSome_iff_exists.mp start
    obtain ⟨w, mem, value⟩ := List.exists_of_findSome?_eq_some first
    rw [first, ← value, same w.groups w.rest ⟨w.text, mem⟩]

/-- As many characters as there are come first. -/
theorem exists_many (kind : Char → Bool) (cs : List Char) : ∃ others,
    (many kind).ways cs = ⟨cs.takeWhile kind, [], cs.dropWhile kind⟩ :: others := by
  induction cs with
  | nil => exact ⟨[], rfl⟩
  | cons c cs ih =>
    obtain ⟨others, ways_eq⟩ := ih
    rw [ways] at ways_eq
    rw [ways, cuts, List.reverse_cons]
    by_cases fits : kind c = true
    · rw [if_pos fits, ← List.map_reverse, ways_eq, List.takeWhile_cons_of_pos fits,
        List.dropWhile_cons_of_pos fits]
      exact ⟨_, rfl⟩
    · rw [if_neg fits, List.takeWhile_cons_of_neg fits, List.dropWhile_cons_of_neg fits]
      exact ⟨[], rfl⟩

theorem find_many {b : β} (most : k [] (cs.dropWhile kind) = some b) :
    (many kind).find cs k = some b := by
  obtain ⟨others, ways_eq⟩ := exists_many kind cs
  rw [find, ways_eq, List.findSome?_cons, most]

end First

end Pattern

namespace Diagnostic

open Pattern

/-- The tags of all severities. -/
def tagPattern : Pattern :=
  either (word Severity.error.tag) (either (word Severity.warning.tag) (word Severity.author.tag))

/-- The start of a line. -/
def headPatterns : List Pattern :=
  [many isBlank, group 1 tagPattern, word [':']]

/-- A location. -/
def placePatterns : List Pattern :=
  [word [quote], group 2 (oneOrMore fun c => c ≠ quote), word [quote], oneOrMore isBlank,
    word lineWord, oneOrMore isBlank, group 3 (oneOrMore isDecimalDigit), word [':']]

/-- A message, without the blanks behind it. -/
def messagePatterns : List Pattern :=
  [group 4 (few onLine), many isBlank, finish]

/-- The pattern of a line. -/
def linePattern : Pattern :=
  row (headPatterns ++ many isBlank :: optional (row (placePatterns ++ [many isBlank])) ::
    messagePatterns)

/-- The severity that has a tag. -/
def severityOf? (tag : List Char) : Option Severity :=
  [Severity.error, .warning, .author].find? fun s => s.tag = tag

/-- The diagnostic that the groups of a line tell. -/
def ofGroups (groups : Groups) : Option Diagnostic := do
  let severity ← severityOf? (← groups.lookup 1)
  return ⟨severity, (groups.lookup 2).map String.ofList, (groups.lookup 3).bind lineNumber?,
    String.ofList ((groups.lookup 4).getD [])⟩

section Messages

variable {β : Type} {cs : List Char}

theorem find_end (cs : List Char) (g : Groups → β) :
    (row [many isBlank, finish]).find cs (fun gs _ => some (g gs)) =
      if AllBlank cs then some (g []) else none := by
  have ends (gs : Groups) (rest : List Char) :
      (row [finish]).find rest (fun gs' _ => some (g (gs ++ gs'))) =
        if rest = [] then some (g gs) else none := by
    rw [row, find_both]
    split
    next blank => simp [find, ways, row, blank, dropLead]
    next more => simp [find, ways, more]
  rw [row, find_both]
  simp only [ends]
  split
  next blank => exact find_many (if_pos (trimStart_blank blank))
  next solid =>
    refine find_none fun gs rest way => if_neg fun whole => solid ?_
    obtain ⟨text, mem⟩ := way
    obtain ⟨blank, -, split⟩ := (many_just isBlank _ _).mp mem
    rw [split, whole, List.append_nil]
    exact blank

/-- A message ends at the first place behind which nothing but blanks follow, unless a newline
stands in front of that place. -/
theorem find_cut (h : Groups → List Char → β) (cs : List Char) :
    ((cuts onLine cs).findSome? fun w =>
      if AllBlank w.rest then some (h w.groups w.text) else none) =
        if '\n' ∈ trimEnd cs then none else some (h [] (trimEnd cs)) := by
  induction cs generalizing h with
  | nil => rfl
  | cons c cs ih =>
    rw [cuts, List.findSome?_cons]
    by_cases blank : AllBlank (c :: cs)
    · rw [if_pos blank, trimEnd_blank blank]
      simp
    · -- the message goes on here, so its first character has to stand on a line
      rw [if_neg blank, trimEnd_cons blank]
      by_cases newline : c = '\n'
      · simp [onLine, newline]
      · have fits : onLine c = true := by simp [onLine, newline]
        have other : '\n' ≠ c := Ne.symm newline
        rw [if_pos fits, List.findSome?_map]
        refine (ih fun gs text => h gs (c :: text)).trans ?_
        simp [other]

theorem find_message (cs : List Char) (g : Groups → β) :
    (row messagePatterns).find cs (fun gs _ => some (g gs)) =
      if '\n' ∈ trimEnd cs then none else some (g [(4, trimEnd cs)]) := by
  rw [messagePatterns, row, find_both]
  simp only [find_end _ fun gs' => g (_ ++ gs')]
  rw [find, ways, List.findSome?_map]
  exact find_cut (fun gs text => g ((4, text) :: gs ++ [])) cs

/-- The blanks in front of a message are no part of it. -/
theorem find_spoken (cs : List Char) (g : Groups → β) :
    (many isBlank).find cs (fun gs rest =>
      (row messagePatterns).find rest fun gs' _ => some (g (gs ++ gs'))) =
      if '\n' ∈ trim cs then none else some (g [(4, trim cs)]) := by
  simp only [find_message _ fun gs' => g (_ ++ gs')]
  split
  next newline =>
    refine find_none fun gs rest way => if_pos ?_
    obtain ⟨text, mem⟩ := way
    obtain ⟨blank, -, split⟩ := (many_just isBlank _ _).mp mem
    exact mem_trimEnd_of_trim blank (split ▸ newline)
  next on_line => exact find_many (if_neg on_line)

end Messages

variable {cs rest : List Char} {groups : Groups}

theorem matches_place : (row placePatterns).Matches cs groups rest ↔
    ∃ l : Location, cs = l.text ++ rest ∧ groups = [(2, l.file), (3, l.digits)] := by
  simp only [placePatterns, (word_just _).next, (oneOrMore_just _).next, (oneOrMore_just _).noted,
    matches_nil]
  constructor
  · rintro ⟨_, _, rfl, rfl, file, _, _, ⟨file_some, file_plain⟩, rfl, ⟨_, _, rfl, rfl, gap, _,
      ⟨gap_some, gap_blank⟩, rfl, _, _, rfl, rfl, space, _, ⟨space_some, space_blank⟩, rfl, digits,
      _, _, ⟨digits_some, digits_decimal⟩, rfl, ⟨_, _, rfl, rfl, rfl, rfl⟩, rfl⟩, rfl⟩
    have plain : quote ∉ file := fun mem => by simpa using file_plain quote mem
    refine ⟨⟨file, gap, space, digits, file_some, plain, gap_some, gap_blank, space_some,
      space_blank, digits_some, digits_decimal⟩, ?_, rfl⟩
    simp [Location.text]
  · rintro ⟨l, rfl, rfl⟩
    have plain : ∀ c ∈ l.file, decide (c ≠ quote) = true :=
      fun c hc => decide_eq_true fun same => l.file_plain (same ▸ hc)
    have shape : l.text ++ rest = [quote] ++ (l.file ++ ([quote] ++ (l.gap ++ (lineWord ++
        (l.space ++ (l.digits ++ ([':'] ++ rest))))))) := by
      simp [Location.text]
    rw [shape]
    exact ⟨_, _, rfl, rfl, l.file, _, _, ⟨l.file_some, plain⟩, rfl, ⟨_, _, rfl, rfl, l.gap, _,
      ⟨l.gap_some, l.gap_blank⟩, rfl, _, _, rfl, rfl, l.space, _, ⟨l.space_some, l.space_blank⟩,
      rfl, l.digits, _, _, ⟨l.digits_some, l.digits_decimal⟩, rfl, ⟨_, _, rfl, rfl, rfl, rfl⟩, rfl⟩,
      rfl⟩

theorem tag_just :
    tagPattern.MatchesJust fun text => ∃ severity : Severity, text = severity.tag := by
  intro cs w
  have one_of : (w.text = Severity.error.tag ∨ w.text = Severity.warning.tag ∨
      w.text = Severity.author.tag) ↔ ∃ severity : Severity, w.text = severity.tag := by
    constructor
    · rintro (error | warning | author)
      · exact ⟨_, error⟩
      · exact ⟨_, warning⟩
      · exact ⟨_, author⟩
    · rintro ⟨severity, text⟩
      cases severity <;> simp [text]
  refine ((word_just _).either ((word_just _).either (word_just _)) cs w).trans ?_
  exact and_congr_left' one_of

theorem matches_head : (row headPatterns).Matches cs groups rest ↔
    ∃ severity : Severity, readTag (trimStart cs) = some (severity, rest) ∧
      groups = [(1, severity.tag)] := by
  simp only [headPatterns, (word_just _).next, (many_just _).next, tag_just.noted, matches_nil]
  constructor
  · rintro ⟨lead, _, blank, rfl, _, _, _, ⟨severity, rfl⟩, rfl, ⟨_, _, rfl, rfl, rfl, rfl⟩, rfl⟩
    exact ⟨severity, readTag_trimStart blank severity _, rfl⟩
  · rintro ⟨severity, read, rfl⟩
    obtain ⟨lead, blank, whole⟩ := exists_trimStart cs
    rw [readTag_eq_some.mp read] at whole
    exact ⟨lead, _, blank, whole, severity.tag, ':' :: rest, [], ⟨severity, rfl⟩, rfl,
      ⟨_, rest, rfl, rfl, rfl, rfl⟩, rfl⟩

section Find

variable {β : Type}

theorem find_head (cs : List Char) (k : Groups → List Char → Option β) :
    (row headPatterns).find cs k =
      (readTag (trimStart cs)).bind fun (severity, rest) => k [(1, severity.tag)] rest := by
  cases read : readTag (trimStart cs) with
  | none =>
    refine find_none fun gs rest way => ?_
    obtain ⟨severity, found, -⟩ := matches_head.mp way
    rw [read] at found
    cases found
  | some found =>
    obtain ⟨severity, rest⟩ := found
    refine find_same (matches_head.mpr ⟨severity, read, rfl⟩) fun gs rest' way => ?_
    obtain ⟨other, same, rfl⟩ := matches_head.mp way
    rw [read] at same
    cases same
    rfl

theorem trimStart_of_readLocation {found : List Char × List Char × List Char}
    (read : readLocation cs = some found) : trimStart cs = cs := by
  obtain ⟨l, after, rfl, -⟩ := exists_of_readLocation read
  exact trimStart_cons (by decide) _

/-- The message behind a location is an end of the text. -/
theorem mem_of_readLocation {c : Char} {file digits after : List Char}
    (read : readLocation cs = some (file, digits, after)) (mem : c ∈ trimEnd after) :
    c ∈ trimEnd cs := by
  obtain ⟨l, behind, rfl, -, -, rfl⟩ := exists_of_readLocation read
  obtain ⟨lead, -, whole⟩ := exists_trimStart behind
  rw [whole]
  exact mem_trimEnd_append (mem_trimEnd_append mem lead) l.text

/-- What a location tells together with the message behind it. -/
theorem find_located (cs : List Char) (g : Groups → β) :
    (row (placePatterns ++ [many isBlank])).find cs (fun gs rest =>
      (row messagePatterns).find rest fun gs' _ => some (g (gs ++ gs'))) =
      (readLocation cs).bind fun (file, digits, rest) =>
        if '\n' ∈ trimEnd rest then none
        else some (g [(2, file), (3, digits), (4, trimEnd rest)]) := by
  have spoken (gs : Groups) (rest : List Char) := find_spoken rest fun gs' => g (gs ++ gs')
  rw [find_row]
  simp only [find_alone, List.append_assoc, spoken]
  cases read : readLocation cs with
  | none =>
    refine find_none fun gs rest way => ?_
    obtain ⟨l, rfl, -⟩ := matches_place.mp way
    rw [readLocation_append] at read
    cases read
  | some found =>
    obtain ⟨l, after, rfl, file, digits, rest⟩ := exists_of_readLocation read
    refine find_same (matches_place.mpr ⟨l, rfl, rfl⟩) fun gs rest' way => ?_
    obtain ⟨l', same, rfl⟩ := matches_place.mp way
    rw [same, readLocation_append] at read
    obtain rfl := Option.some.inj read
    rfl

/-- What may stand behind the colon of a tag: blanks, and a location with a message or a message
alone. -/
theorem find_told (cs : List Char) (g : Groups → β) :
    (row (many isBlank :: optional (row (placePatterns ++ [many isBlank])) ::
      messagePatterns)).find cs (fun gs _ => some (g gs)) =
      ((readLocation (trimStart cs)).bind fun (file, digits, rest) =>
        if '\n' ∈ trimEnd rest then none
        else some (g [(2, file), (3, digits), (4, trimEnd rest)])).or
      (if '\n' ∈ trim cs then none else some (g [(4, trim cs)])) := by
  have behind (gs : Groups) (rest : List Char) :
      (both (optional (row (placePatterns ++ [many isBlank]))) (row messagePatterns)).find rest
        (fun gs' _ => some (g (gs ++ gs'))) =
        ((readLocation rest).bind fun (file, digits, rest) =>
          if '\n' ∈ trimEnd rest then none
          else some (g (gs ++ [(2, file), (3, digits), (4, trimEnd rest)]))).or
        (if '\n' ∈ trimEnd rest then none else some (g (gs ++ [(4, trimEnd rest)]))) := by
    rw [find_both, find_optional]
    exact congrArg₂ Option.or (find_located rest fun gs' => g (gs ++ gs'))
      (find_message rest fun gs' => g (gs ++ gs'))
  rw [row, row, find_both]
  simp only [behind]
  generalize outcome :
    Option.or _ (if '\n' ∈ trim cs then none else some (g [(4, trim cs)])) = found
  cases found with
  | some b => exact find_many outcome
  | none =>
    -- when all blanks are taken and nothing is found, then a newline stands in the message, and it
    -- stands there as well when fewer blanks are taken; a location is found only behind all of them
    obtain ⟨no_place, no_message⟩ := Option.or_eq_none_iff.mp outcome
    have newline : '\n' ∈ trim cs := by
      by_contra on_line
      rw [if_neg on_line] at no_message
      cases no_message
    refine find_none fun gs rest way => ?_
    obtain ⟨text, mem⟩ := way
    obtain ⟨blank, -, whole⟩ := (many_just isBlank _ _).mp mem
    dsimp only at blank whole
    subst whole
    refine Option.or_eq_none_iff.mpr ⟨?_, if_pos (mem_trimEnd_of_trim blank newline)⟩
    cases read : readLocation rest with
    | none => rfl
    | some found =>
      obtain ⟨file, digits, after⟩ := found
      rw [trimStart_append blank, trimStart_of_readLocation read, read] at no_place
      have lost : '\n' ∈ trimEnd after := by
        by_contra on_line
        exact Option.some_ne_none _ ((if_neg on_line).symm.trans no_place)
      exact if_pos lost

end Find

theorem ofGroups_place (severity : Severity) (file digits message : List Char) :
    ofGroups [(1, severity.tag), (2, file), (3, digits), (4, message)] =
      some ⟨severity, some (String.ofList file), lineNumber? digits, String.ofList message⟩ := by
  cases severity <;> rfl

theorem ofGroups_message (severity : Severity) (message : List Char) :
    ofGroups [(1, severity.tag), (4, message)] =
      some ⟨severity, none, none, String.ofList message⟩ := by
  cases severity <;> rfl

/-- A line is read as the first way to match its pattern tells. -/
theorem ofLine?_eq_first (line : String) :
    ofLine? line = (linePattern.first? line.toList).bind ofGroups := by
  rw [first?_eq, linePattern, find_row, find_head, ofLine?]
  cases readTag (trimStart line.toList) with
  | none => rfl
  | some found =>
    obtain ⟨severity, rest⟩ := found
    have told := find_told rest fun gs => (1, severity.tag) :: gs
    simp only [Option.bind_eq_bind, Option.bind_some, List.singleton_append, told]
    cases place : readLocation (trimStart rest) with
    | none =>
      dsimp only
      rw [← trim]
      split <;> simp [ofGroups_message]
    | some found =>
      obtain ⟨file, digits, after⟩ := found
      dsimp only
      split
      next newline =>
        have lost : '\n' ∈ trim rest := mem_of_readLocation place newline
        simp [newline, lost]
      next on_line => simp [on_line, ofGroups_place]

end Diagnostic

open Pattern

/-- The pattern of an include line. -/
def includePattern : Pattern :=
  row [many isBlank, word includeWord, oneOrMore isBlank, group 1 (oneOrMore onLine), finish]

/-- The file that the groups of an include line name. -/
def includeOfGroups (groups : Groups) : Option String := do
  let raw ← groups.lookup 1
  if trim raw = [] then none else some (String.ofList (trim raw))

section

variable {line rest : List Char} {groups : Groups}

theorem matches_include : includePattern.Matches line groups rest ↔
    ∃ lead gap raw, AllBlank lead ∧ gap ≠ [] ∧ AllBlank gap ∧ raw ≠ [] ∧
      (∀ c ∈ raw, onLine c = true) ∧ line = lead ++ (includeWord ++ (gap ++ raw)) ∧
      groups = [(1, raw)] ∧ rest = [] := by
  simp only [includePattern, (word_just _).next, (many_just _).next, (oneOrMore_just _).next,
    (oneOrMore_just _).noted, matches_finish]
  constructor
  · rintro ⟨lead, _, front, rfl, _, _, rfl, rfl, gap, _, ⟨space, between⟩, rfl, raw, _, _,
      ⟨some_, on_line⟩, rfl, ⟨rfl, rfl, rfl⟩, rfl⟩
    exact ⟨lead, gap, raw, front, space, between, some_, on_line, by simp, rfl, rfl⟩
  · rintro ⟨lead, gap, raw, front, space, between, some_, on_line, rfl, rfl, rfl⟩
    exact ⟨lead, _, front, rfl, _, _, rfl, rfl, gap, _, ⟨space, between⟩, rfl, raw, [], [],
      ⟨some_, on_line⟩, by simp, ⟨rfl, rfl, rfl⟩, rfl⟩

/-- All ways to match an include line name the same file. -/
theorem includeOfLine_of_matches (way : includePattern.Matches line groups rest) :
    includeOfLine line = includeOfGroups groups := by
  obtain ⟨lead, gap, raw, front, space, between, -, -, rfl, rfl, -⟩ := matches_include.mp way
  obtain ⟨c, gap, rfl⟩ := List.exists_cons_of_ne_nil space
  obtain ⟨blank, between⟩ := List.forall_mem_cons.mp between
  have start : trimStart (lead ++ (includeWord ++ (c :: gap ++ raw))) =
      includeWord ++ (c :: (gap ++ raw)) :=
    (trimStart_append front _).trans (trimStart_cons (by decide) _)
  have name : trim (gap ++ raw) = trim raw := by rw [trim, trimStart_append between, trim]
  rw [includeOfLine, includeWord_eq, start, dropLead_append]
  dsimp only
  rw [name]
  simp [includeOfGroups, blank]

/-- A line is read as an include just as the first way to match the pattern tells. -/
theorem includeOfLine_eq_first (one_line : '\n' ∉ line) :
    includeOfLine line = (includePattern.first? line).bind includeOfGroups := by
  cases first : includePattern.first? line with
  | some groups =>
    obtain ⟨rest, way⟩ := matches_of_first? first
    exact includeOfLine_of_matches way
  | none =>
    refine Option.eq_none_iff_forall_ne_some.mpr fun name named => ?_
    obtain ⟨some_, -, gap, space, between, text⟩ := includeOfLine_eq_some.mp named
    obtain ⟨lead, tail, front, -, whole⟩ := exists_trim line
    rw [text] at whole
    refine first?_eq_none.mp first [(1, name.toList ++ tail)] [] (matches_include.mpr ?_)
    refine ⟨lead, gap, name.toList ++ tail, front, space, between, by simp [some_], ?_,
      by simp [whole], rfl, rfl⟩
    intro c hc
    refine decide_eq_true fun newline => one_line ?_
    rw [whole, ← newline]
    simp only [List.mem_append] at hc ⊢
    tauto

/-- Blanks behind a name are noted with it. -/
example : includePattern.first? "INCLUDE  a b ".toList = some [(1, "a b ".toList)] := by decide

end

/-- What a text includes is what the first ways to match its lines tell. -/
theorem includesOf_eq_first (text : String) : includesOf text =
    (cutAt '\n' (stripComments text.toList)).filterMap fun line =>
      (includePattern.first? line).bind includeOfGroups := by
  rw [includesOf_eq]
  exact List.filterMap_congr fun line hl => includeOfLine_eq_first (not_mem_of_mem_cutAt hl)

end StoryBuild
