import StoryBuild.Diagnostic
import StoryBuild.Proofs.JsonText
import StoryBuild.Proofs.Trimming

namespace StoryBuild

/-- Whether digits are the decimal numeral of a number, with any zeros in front. -/
def Numeral (digits : List Char) (n : Nat) : Prop :=
  ∃ zeros, digits = List.replicate zeros '0' ++ Nat.toDigits 10 n

theorem numeral_toDigits (n : Nat) : Numeral (Nat.toDigits 10 n) n :=
  ⟨0, rfl⟩

/-- A digit behind a numeral. -/
theorem Numeral.concat {digits : List Char} {n d : Nat} (h : Numeral digits n) (digit : d < 10) :
    Numeral (digits ++ [d.digitChar]) (10 * n + d) := by
  obtain ⟨zeros, rfl⟩ := h
  by_cases zero : n = 0
  · subst zero
    refine ⟨zeros + 1, ?_⟩
    rw [Nat.mul_zero, Nat.zero_add, Nat.toDigits_of_lt_base digit, Nat.toDigits_zero,
      List.replicate_succ']
  · refine ⟨zeros, ?_⟩
    rw [← Nat.toDigits_append_toDigits (by decide) (Nat.pos_of_ne_zero zero) digit,
      Nat.toDigits_of_lt_base digit, List.append_assoc]

theorem exists_digitChar {c : Char} (digit : c.isDigit = true) :
    ∃ d < 10, c = d.digitChar ∧ c.toNat - 48 = d := by
  have bounds : 48 ≤ c.toNat ∧ c.toNat ≤ 57 := by
    simpa [Char.isDigit, UInt32.le_iff_toNat_le] using digit
  have small : c.toNat - 48 < 10 := by omega
  refine ⟨c.toNat - 48, small, ?_, rfl⟩
  refine Char.toNat_inj.mp ?_
  rw [Nat.toNat_digitChar_of_lt_ten small]
  omega

/-- ASCII digits are the numeral of their value. -/
theorem numeral_of_digits {digits : List Char} (some_ : digits ≠ [])
    (ascii : ∀ c ∈ digits, c.isDigit = true) :
    Numeral digits (digits.foldl (fun n c => 10 * n + (c.toNat - 48)) 0) := by
  induction digits using List.reverseRecOn with
  | nil => exact absurd rfl some_
  | append_singleton digits c ih =>
    obtain ⟨d, small, rfl, value⟩ := exists_digitChar (ascii c (by simp))
    rw [List.foldl_append, List.foldl_cons, List.foldl_nil, value]
    by_cases first : digits = []
    · subst first
      refine ⟨0, ?_⟩
      simp [Nat.toDigits_of_lt_base small]
    · exact (ih first fun c hc => ascii c (by simp [hc])).concat small

/-- Numbers are read from their numerals and from nothing else. -/
theorem readDecimal_eq_some {digits : List Char} {n : Nat} :
    readDecimal digits = some n ↔ Numeral digits n := by
  constructor
  · intro h
    unfold readDecimal at h
    split at h
    next ascii =>
      obtain rfl := Option.some.inj h
      exact numeral_of_digits ascii.1 (List.all_eq_true.mp ascii.2)
    next => cases h
  · rintro ⟨zeros, rfl⟩
    induction zeros with
    | zero => exact readDecimal_toDigits n
    | succ zeros ih =>
      rw [← ih, List.replicate_succ, List.cons_append]
      simp [readDecimal, Nat.toDigits_ne_nil]

/-- The code points of blanks. -/
def blankCodes : List Nat :=
  [9, 10, 11, 12, 13, 0x20, 0x85, 0xA0, 0x1680, 0x2000, 0x2001, 0x2002, 0x2003, 0x2004, 0x2005,
    0x2006, 0x2007, 0x2008, 0x2009, 0x200A, 0x2028, 0x2029, 0x202F, 0x205F, 0x3000]

theorem isBlank_false_of_digit {c : Char} (digit : isDecimalDigit c = true) :
    isBlank c = false := by
  have apart : ∀ n ∈ blankCodes, inRanges decimalDigits n = false := by decide
  rw [Bool.eq_false_iff]
  intro blank
  have code : c.toNat ∈ blankCodes := by
    simp only [isBlank, Bool.or_eq_true, Bool.and_eq_true, decide_eq_true_eq, beq_iff_eq] at blank
    simp only [blankCodes, List.mem_cons, List.not_mem_nil, or_false]
    omega
  rw [isDecimalDigit, apart _ code] at digit
  cases digit

namespace Diagnostic

/-- The number of a line is read from the numeral of a number below the bound, and from nothing
else. -/
theorem lineNumber?_eq_some {digits : List Char} {n : Nat} :
    lineNumber? digits = some n ↔ n < lineBound ∧ Numeral digits n := by
  rw [lineNumber?, Option.filter_eq_some_iff, readDecimal_eq_some, and_comm, decide_eq_true_eq]

theorem dropTag_eq_some {severity : Severity} {cs rest : List Char} :
    dropLead (severity.tag ++ [':']) cs = some rest ↔ cs = severity.tag ++ ':' :: rest := by
  rw [dropLead_eq_some, List.append_assoc, List.singleton_append]

theorem readTag_eq_some {cs rest : List Char} {severity : Severity} :
    readTag cs = some (severity, rest) ↔ cs = severity.tag ++ ':' :: rest := by
  constructor
  · intro h
    obtain ⟨s, -, found⟩ := List.exists_of_findSome?_eq_some h
    obtain ⟨tail, dropped, same⟩ := Option.map_eq_some_iff.mp found
    cases same
    exact dropTag_eq_some.mp dropped
  · rintro rfl
    cases severity <;> rfl

/-- The mark around file names. -/
abbrev quote : Char := '\x27'

/-- The word in front of a line number. -/
def lineWord : List Char := ['l', 'i', 'n', 'e']

theorem lineWord_eq : "line".toList = lineWord := rfl

/-- A place in a file as a compiler writes it: the quoted name, blanks, the word `line`, blanks, and
digits. -/
structure Location where
  file : List Char
  gap : List Char
  space : List Char
  digits : List Char
  file_some : file ≠ []
  file_plain : quote ∉ file
  gap_some : gap ≠ []
  gap_blank : AllBlank gap
  space_some : space ≠ []
  space_blank : AllBlank space
  digits_some : digits ≠ []
  digits_decimal : ∀ c ∈ digits, isDecimalDigit c = true

/-- The text of a place, with the colon behind it. -/
def Location.text (l : Location) : List Char :=
  quote :: (l.file ++ quote :: (l.gap ++ (lineWord ++ (l.space ++ (l.digits ++ [':'])))))

/-- Whether a text starts with a location. -/
def StartsLocated (cs : List Char) : Prop :=
  ∃ l : Location, l.text <+: cs

theorem readBlanks_append {gap rest : List Char} (some_ : gap ≠ []) (blank : AllBlank gap)
    (solid : trimStart rest = rest) : readBlanks (gap ++ rest) = some rest := by
  obtain ⟨c, gap, rfl⟩ := List.exists_cons_of_ne_nil some_
  obtain ⟨first, others⟩ := List.forall_mem_cons.mp blank
  rw [List.cons_append, readBlanks, if_pos first, trimStart_append others, solid]

theorem exists_of_readBlanks {cs rest : List Char} (h : readBlanks cs = some rest) :
    ∃ gap, gap ≠ [] ∧ AllBlank gap ∧ cs = gap ++ rest := by
  cases cs with
  | nil => cases h
  | cons c cs =>
    rw [readBlanks] at h
    split at h
    next blank =>
      obtain rfl := Option.some.inj h
      obtain ⟨lead, front, whole⟩ := exists_trimStart cs
      exact ⟨c :: lead, by simp, List.forall_mem_cons.mpr ⟨blank, front⟩,
        congrArg (c :: ·) whole⟩
    next => cases h

theorem readLocation_append (l : Location) (after : List Char) :
    readLocation (l.text ++ after) = some (l.file, l.digits, trimStart after) := by
  have name_front : ∀ c ∈ l.file, decide (c ≠ quote) = true :=
    fun c hc => decide_eq_true fun same => l.file_plain (same ▸ hc)
  obtain ⟨d, ds, digits⟩ := List.exists_cons_of_ne_nil l.digits_some
  have first : isDecimalDigit d = true := l.digits_decimal d (by simp [digits])
  have number : trimStart (l.digits ++ ':' :: after) = l.digits ++ ':' :: after := by
    rw [digits]
    exact trimStart_cons (isBlank_false_of_digit first) _
  have word : trimStart (lineWord ++ (l.space ++ (l.digits ++ ':' :: after))) =
      lineWord ++ (l.space ++ (l.digits ++ ':' :: after)) :=
    trimStart_cons (by decide) _
  have shape : l.text ++ after = [quote] ++ (l.file ++ quote ::
      (l.gap ++ (lineWord ++ (l.space ++ (l.digits ++ ':' :: after))))) := by
    simp [Location.text]
  have colon : isDecimalDigit ':' = false := by decide
  unfold readLocation
  rw [shape, dropLead_append, lineWord_eq]
  simp only [Option.bind_eq_bind, Option.bind_some]
  rw [List.dropWhile_append_of_pos name_front, List.takeWhile_append_of_pos name_front,
    List.dropWhile_cons_of_neg (by simp), List.takeWhile_cons_of_neg (by simp), List.append_nil,
    dropLead_singleton]
  simp only [Option.bind_some]
  rw [readBlanks_append l.gap_some l.gap_blank word]
  simp only [Option.bind_some]
  rw [dropLead_append]
  simp only [Option.bind_some]
  rw [readBlanks_append l.space_some l.space_blank number]
  simp only [Option.bind_some]
  rw [List.dropWhile_append_of_pos l.digits_decimal, List.takeWhile_append_of_pos l.digits_decimal,
    List.dropWhile_cons_of_neg (by simp [colon]), List.takeWhile_cons_of_neg (by simp [colon]),
    List.append_nil, dropLead_singleton]
  simp [l.file_some, l.digits_some]

theorem exists_of_readLocation {cs file digits rest : List Char}
    (h : readLocation cs = some (file, digits, rest)) :
    ∃ (l : Location) (after : List Char), cs = l.text ++ after ∧ l.file = file ∧
      l.digits = digits ∧ rest = trimStart after := by
  unfold readLocation at h
  obtain ⟨behindQuote, quoted, h⟩ := Option.bind_eq_some_iff.mp h
  obtain ⟨behindFile, named, h⟩ := Option.bind_eq_some_iff.mp h
  obtain ⟨word, gap_read, h⟩ := Option.bind_eq_some_iff.mp h
  obtain ⟨behindWord, word_read, h⟩ := Option.bind_eq_some_iff.mp h
  obtain ⟨number, space_read, h⟩ := Option.bind_eq_some_iff.mp h
  obtain ⟨after, colon, h⟩ := Option.bind_eq_some_iff.mp h
  split at h
  next => cases h
  next some_ =>
    rw [not_or] at some_
    simp only [Option.some.injEq, Prod.mk.injEq] at h
    obtain ⟨rfl, rfl, rfl⟩ := h
    obtain ⟨gap, gap_some, gap_blank, rfl⟩ := exists_of_readBlanks gap_read
    obtain ⟨space, space_some, space_blank, rfl⟩ := exists_of_readBlanks space_read
    have plain : quote ∉ behindQuote.takeWhile (· ≠ quote) := by
      intro mem
      simpa using List.mem_takeWhile_imp mem
    have decimal : ∀ c ∈ number.takeWhile isDecimalDigit, isDecimalDigit c = true :=
      fun c hc => List.mem_takeWhile_imp hc
    have file_text := List.takeWhile_append_dropWhile (p := (· ≠ quote)) (l := behindQuote)
    have number_text := List.takeWhile_append_dropWhile (p := isDecimalDigit) (l := number)
    rw [dropLead_eq_some.mp named, dropLead_eq_some.mp word_read] at file_text
    rw [dropLead_eq_some.mp colon] at number_text
    refine ⟨⟨_, gap, space, _, some_.1, plain, gap_some, gap_blank, space_some, space_blank, some_.2,
      decimal⟩, after, ?_, rfl, rfl, rfl⟩
    calc cs = quote :: behindQuote := dropLead_eq_some.mp quoted
      _ = quote :: (behindQuote.takeWhile (· ≠ quote) ++ ([quote] ++ (gap ++ ("line".toList ++
            (space ++ (number.takeWhile isDecimalDigit ++ ([':'] ++ after))))))) := by
        rw [number_text, file_text]
      _ = _ := by simp [Location.text, lineWord_eq]

theorem readLocation_eq_none {cs : List Char} : readLocation cs = none ↔ ¬ StartsLocated cs := by
  constructor
  · rintro h ⟨l, after, rfl⟩
    rw [readLocation_append] at h
    cases h
  · intro unlocated
    cases read : readLocation cs with
    | none => rfl
    | some found =>
      obtain ⟨file, digits, rest⟩ := found
      obtain ⟨l, after, rfl, -⟩ := exists_of_readLocation read
      exact absurd ⟨l, List.prefix_append _ _⟩ unlocated

instance (cs : List Char) : Decidable (StartsLocated cs) :=
  decidable_of_iff (¬ readLocation cs = none) (by rw [readLocation_eq_none, not_not])

theorem readTag_trimStart {lead : List Char} (blank : AllBlank lead) (severity : Severity)
    (rest : List Char) :
    readTag (trimStart (lead ++ (severity.tag ++ ':' :: rest))) = some (severity, rest) := by
  rw [trimStart_append blank, readTag_eq_some]
  cases severity <;> exact trimStart_cons (by decide) _

variable {line : String} {severity : Severity} {lead gap rest after : List Char}

/-- A line with a location, and a message on one line behind it. -/
theorem ofLine?_located {l : Location} (front : AllBlank lead) (between : AllBlank gap)
    (text : line.toList = lead ++ (severity.tag ++ ':' :: (gap ++ (l.text ++ after))))
    (one_line : '\n' ∉ trim after) :
    ofLine? line = some ⟨severity, some (String.ofList l.file), lineNumber? l.digits,
      String.ofList (trim after)⟩ := by
  have body : trimStart (gap ++ (l.text ++ after)) = l.text ++ after := by
    rw [trimStart_append between]
    exact trimStart_cons (by decide) _
  unfold ofLine?
  rw [text, readTag_trimStart front]
  simp only [Option.bind_eq_bind, Option.bind_some, body, readLocation_append]
  exact if_neg one_line

/-- A line with a tag and a message on one line, and no location. -/
theorem ofLine?_unlocated (front : AllBlank lead)
    (text : line.toList = lead ++ (severity.tag ++ ':' :: rest))
    (no_location : ¬ StartsLocated (trimStart rest)) (one_line : '\n' ∉ trim rest) :
    ofLine? line = some ⟨severity, none, none, String.ofList (trim rest)⟩ := by
  unfold ofLine?
  rw [text, readTag_trimStart front]
  simp only [Option.bind_eq_bind, Option.bind_some, readLocation_eq_none.mpr no_location]
  exact if_neg one_line

/-- What is read has a tag, and a message that was trimmed. -/
theorem exists_of_ofLine? {d : Diagnostic} (h : ofLine? line = some d) :
    (∃ (lead : List Char) (severity : Severity) (rest : List Char), AllBlank lead ∧
      line.toList = lead ++ (severity.tag ++ ':' :: rest)) ∧
      ∃ after, d.message = String.ofList (trim after) := by
  unfold ofLine? at h
  obtain ⟨⟨severity, rest⟩, tagged, h⟩ := Option.bind_eq_some_iff.mp h
  obtain ⟨lead, front, whole⟩ := exists_trimStart line.toList
  rw [readTag_eq_some.mp tagged] at whole
  refine ⟨⟨lead, severity, rest, front, whole⟩, ?_⟩
  dsimp only at h
  split at h
  next file digits rest' read =>
    split at h
    next => cases h
    next =>
      obtain ⟨-, after, -, -, -, rfl⟩ := exists_of_readLocation read
      exact ⟨after, by rw [← Option.some.inj h]; rfl⟩
  next =>
    split at h
    next => cases h
    next => exact ⟨rest, by rw [← Option.some.inj h]; rfl⟩

/-- A line without a newline is read if it has a tag. -/
theorem ofLine?_isSome (front : AllBlank lead)
    (text : line.toList = lead ++ (severity.tag ++ ':' :: rest)) (one_line : '\n' ∉ line.toList) :
    (ofLine? line).isSome = true := by
  rw [text, List.mem_append, List.mem_append, List.mem_cons, not_or, not_or, not_or] at one_line
  have rest_line : '\n' ∉ rest := one_line.2.2.2
  by_cases located : StartsLocated (trimStart rest)
  · obtain ⟨l, after, body⟩ := located
    obtain ⟨gap, between, whole⟩ := exists_trimStart rest
    rw [← body] at whole
    have after_line : '\n' ∉ trim after := by
      refine fun mem => rest_line ?_
      rw [whole]
      simp [mem_of_mem_trim mem]
    rw [ofLine?_located front between (whole ▸ text) after_line]
    rfl
  · rw [ofLine?_unlocated front text located fun mem => rest_line (mem_of_mem_trim mem)]
    rfl

/-- How a diagnostic with a location is written. -/
def written (severity : Severity) (file : String) (line : Nat) (message : String) : String :=
  String.ofList severity.tag ++ ": '" ++ file ++ "' line " ++ toString line ++ ": " ++ message

/-- How a diagnostic without a location is written. -/
def writtenPlain (severity : Severity) (message : String) : String :=
  String.ofList severity.tag ++ ": " ++ message

theorem ofLine?_written {file message : String} (severity : Severity) (n : UInt32)
    (some_ : file ≠ "") (plain : quote ∉ file.toList) (trimmed : IsTrimmed message.toList)
    (one_line : '\n' ∉ message.toList) :
    ofLine? (written severity file n.toNat message) =
      some ⟨severity, some file, some n.toNat, message⟩ := by
  have space : AllBlank [' '] := by simp [AllBlank]; decide
  have decimal : ∀ c ∈ Nat.toDigits 10 n.toNat, isDecimalDigit c = true := by
    intro c hc
    obtain ⟨d, small, rfl, -⟩ :=
      exists_digitChar (Nat.isDigit_of_mem_toDigits (by decide) (by decide) hc)
    have digits : ∀ d < 10, isDecimalDigit d.digitChar = true := by decide
    exact digits d small
  let l : Location := ⟨file.toList, [' '], [' '], Nat.toDigits 10 n.toNat, by simpa using some_,
    plain, by simp, space, by simp, space, Nat.toDigits_ne_nil, decimal⟩
  have text : (written severity file n.toNat message).toList =
      [] ++ (severity.tag ++ ':' :: ([' '] ++ (l.text ++ (' ' :: message.toList)))) := by
    simp [written, Location.text, l, lineWord]
  have nothing : AllBlank [] := by simp [AllBlank]
  have message_text : trim (' ' :: message.toList) = message.toList := by
    simpa using trimmed.trim_append space nothing
  have number : lineNumber? l.digits = some n.toNat :=
    lineNumber?_eq_some.mpr ⟨n.toNat_lt, numeral_toDigits _⟩
  rw [ofLine?_located (by simp [AllBlank]) space text (by rwa [message_text]), number, message_text]
  simp [l]

theorem ofLine?_writtenPlain {message : String} (severity : Severity)
    (trimmed : IsTrimmed message.toList) (one_line : '\n' ∉ message.toList)
    (unlocated : ¬ StartsLocated message.toList) :
    ofLine? (writtenPlain severity message) = some ⟨severity, none, none, message⟩ := by
  have space : AllBlank [' '] := by simp [AllBlank]; decide
  have text : (writtenPlain severity message).toList =
      [] ++ (severity.tag ++ ':' :: ([' '] ++ message.toList)) := by
    simp [writtenPlain]
  have body : trimStart ([' '] ++ message.toList) = message.toList := by
    rw [trimStart_append space, trimmed.trimStart]
  have message_text : trim ([' '] ++ message.toList) = message.toList := by
    rw [trim, trimStart_append space]
    exact trimmed
  rw [ofLine?_unlocated (by simp [AllBlank]) text (by rwa [body]) (by rwa [message_text]),
    message_text, String.ofList_toList]

/-- What is written about a diagnostic is read back, with a location or without one if the message
does not look like one. Of the lines without a newline just those are read that start with a tag;
the message has no blanks at its ends, and a location that a line gives is kept, its number only if
it is in range. -/
theorem lines_read_back :
    (∀ (severity : Severity) (file message : String) (n : UInt32), file ≠ "" →
      quote ∉ file.toList → IsTrimmed message.toList → '\n' ∉ message.toList →
      ofLine? (written severity file n.toNat message) =
        some ⟨severity, some file, some n.toNat, message⟩) ∧
    (∀ (severity : Severity) (message : String), IsTrimmed message.toList →
      '\n' ∉ message.toList → ¬ StartsLocated message.toList →
      ofLine? (writtenPlain severity message) = some ⟨severity, none, none, message⟩) ∧
    ∀ line : String, '\n' ∉ line.toList →
      ((ofLine? line).isSome = true ↔
        ∃ (lead : List Char) (severity : Severity) (rest : List Char), AllBlank lead ∧
          line.toList = lead ++ (severity.tag ++ ':' :: rest)) ∧
      (∀ d, ofLine? line = some d → IsTrimmed d.message.toList) ∧
      ∀ (lead gap after : List Char) (severity : Severity) (l : Location), AllBlank lead →
        AllBlank gap → line.toList = lead ++ (severity.tag ++ ':' :: (gap ++ (l.text ++ after))) →
        (∀ n : UInt32, Numeral l.digits n.toNat → ofLine? line =
          some ⟨severity, some (String.ofList l.file), some n.toNat, String.ofList (trim after)⟩) ∧
        ((∀ n : UInt32, ¬ Numeral l.digits n.toNat) → ofLine? line =
          some ⟨severity, some (String.ofList l.file), none, String.ofList (trim after)⟩) := by
  refine ⟨fun severity file message n => ofLine?_written severity n,
    fun severity message => ofLine?_writtenPlain severity, fun line one_line => ⟨⟨?_, ?_⟩, ?_, ?_⟩⟩
  · intro read
    obtain ⟨d, found⟩ := Option.isSome_iff_exists.mp read
    exact (exists_of_ofLine? found).1
  · rintro ⟨lead, severity, rest, front, text⟩
    exact ofLine?_isSome front text one_line
  · intro d found
    obtain ⟨after, message⟩ := (exists_of_ofLine? found).2
    rw [message, String.toList_ofList]
    exact trim_trim after
  · intro lead gap after severity l front between text
    have after_line : '\n' ∉ trim after := by
      refine fun mem => one_line ?_
      rw [text]
      simp [mem_of_mem_trim mem]
    rw [ofLine?_located front between text after_line]
    refine ⟨fun n numeral => ?_, fun unfit => ?_⟩
    · rw [lineNumber?_eq_some.mpr ⟨n.toNat_lt, numeral⟩]
    · have none_ : lineNumber? l.digits = none := by
        refine Option.eq_none_iff_forall_ne_some.mpr fun n read => ?_
        obtain ⟨small, numeral⟩ := lineNumber?_eq_some.mp read
        exact unfit (UInt32.ofNatLT n small) numeral
      rw [none_]

/-- Messages that look like locations, and a line number out of range. -/
theorem misleading_lines_read :
    ofLine? (written .error "a b.ink" 7 "'c' line 1: d") =
        some ⟨.error, some "a b.ink", some 7, "'c' line 1: d"⟩ ∧
      ofLine? (writtenPlain .author "'c' line : d") =
        some ⟨.author, none, none, "'c' line : d"⟩ ∧
      ofLine? " TODO:'c' line 4294967296: d " = some ⟨.author, some "c", none, "d"⟩ := by
  obtain ⟨located, plain, lines⟩ := lines_read_back
  have space : AllBlank [' '] := by decide
  let l : Location := ⟨['c'], [' '], [' '], "4294967296".toList, by decide, by decide, by decide,
    space, by decide, space, by decide, List.all_eq_true.mp (by decide)⟩
  obtain ⟨-, -, places⟩ := lines " TODO:'c' line 4294967296: d " (by decide)
  refine ⟨located .error "a b.ink" "'c' line 1: d" 7 (by decide) (by decide) (by decide) (by decide),
    plain .author _ (by decide) (by decide) (by decide), ?_⟩
  refine (places [' '] [] " d ".toList .author l space (by decide) rfl).2 fun n numeral => ?_
  have large : lineNumber? "4294967296".toList = none := by decide
  cases large.symm.trans (lineNumber?_eq_some.mpr ⟨n.toNat_lt, numeral⟩)

end Diagnostic

end StoryBuild
