import StoryBuild.Path.Normal

namespace StoryBuild

theorem cutAt_ne_nil (sep : Char) (cs : List Char) : cutAt sep cs ≠ [] := by
  cases cs with
  | nil => simp [cutAt]
  | cons c cs =>
    unfold cutAt
    split
    next => simp
    next => split <;> simp

theorem cutAt_cons_sep (sep : Char) (cs : List Char) :
    cutAt sep (sep :: cs) = [] :: cutAt sep cs := by
  rw [cutAt]
  split
  next h => exact absurd h (cutAt_ne_nil sep cs)
  next h => simp [h]

theorem cutAt_cons {sep c : Char} {cs piece : List Char} {pieces : List (List Char)} (h : c ≠ sep)
    (rest : cutAt sep cs = piece :: pieces) : cutAt sep (c :: cs) = (c :: piece) :: pieces := by
  rw [cutAt, rest]
  simp [h]

theorem cutAt_plain {sep : Char} {cs : List Char} (h : sep ∉ cs) : cutAt sep cs = [cs] := by
  induction cs with
  | nil => rfl
  | cons c cs ih =>
    simp only [List.mem_cons, not_or] at h
    exact cutAt_cons (Ne.symm h.1) (ih h.2)

theorem cutAt_append (sep : Char) (as bs : List Char) :
    cutAt sep (as ++ sep :: bs) = cutAt sep as ++ cutAt sep bs := by
  induction as with
  | nil => exact cutAt_cons_sep sep bs
  | cons a as ih =>
    by_cases h : a = sep
    · subst h
      rw [List.cons_append, cutAt_cons_sep, cutAt_cons_sep, ih, List.cons_append]
    · cases rest : cutAt sep as with
      | nil => exact absurd rest (cutAt_ne_nil sep as)
      | cons piece pieces =>
        rw [rest] at ih
        rw [List.cons_append, cutAt_cons h ih, cutAt_cons h rest]
        rfl

theorem not_mem_of_mem_cutAt {sep : Char} {cs piece : List Char} (h : piece ∈ cutAt sep cs) :
    sep ∉ piece := by
  induction cs generalizing piece with
  | nil =>
    rw [List.mem_singleton.mp h]
    exact List.not_mem_nil
  | cons c cs ih =>
    by_cases hc : c = sep
    · subst hc
      rw [cutAt_cons_sep] at h
      rcases List.mem_cons.mp h with rfl | h
      · exact List.not_mem_nil
      · exact ih h
    · cases rest : cutAt sep cs with
      | nil => exact absurd rest (cutAt_ne_nil sep cs)
      | cons first pieces =>
        rw [cutAt_cons hc rest] at h
        rw [rest] at ih
        rcases List.mem_cons.mp h with rfl | h
        · simp only [List.mem_cons, not_or]
          exact ⟨Ne.symm hc, ih (by simp)⟩
        · exact ih (List.mem_cons_of_mem _ h)

theorem cutAt_gather {sep : Char} {pieces : List (List Char)} (ne : pieces ≠ [])
    (h : ∀ piece ∈ pieces, sep ∉ piece) : cutAt sep (gather sep pieces) = pieces := by
  induction pieces with
  | nil => exact absurd rfl ne
  | cons piece rest ih =>
    have first := cutAt_plain (h piece (by simp))
    cases rest with
    | nil => exact first
    | cons q qs =>
      have later := ih (by simp) fun x hx => h x (List.mem_cons_of_mem _ hx)
      rw [gather, cutAt_append, first, later]
      · rfl
      · simp

/-- The parts that the pieces of a text name. -/
def partsOfPieces : List (List Char) → List Part
  | [] => []
  | [] :: rest => if rest = [] then [] else .root :: rest.filterMap partOf
  | ['.'] :: rest => .here :: rest.filterMap partOf
  | pieces => pieces.filterMap partOf

theorem partsOfPieces_plain {piece : List Char} (rest : List (List Char)) (blank : piece ≠ [])
    (dot : piece ≠ ['.']) :
    partsOfPieces (piece :: rest) = (piece :: rest).filterMap partOf := by
  unfold partsOfPieces
  split
  next => contradiction
  next same => exact absurd (List.cons.inj same).1 blank
  next same => exact absurd (List.cons.inj same).1 dot
  next => rfl

theorem cutAt_eq_blank {sep : Char} {cs : List Char} : cutAt sep cs = [[]] ↔ cs = [] := by
  constructor
  · intro h
    cases cs with
    | nil => rfl
    | cons c cs =>
      by_cases hc : c = sep
      · subst hc
        rw [cutAt_cons_sep] at h
        exact absurd (List.cons.inj h).2 (cutAt_ne_nil c cs)
      · cases rest : cutAt sep cs with
        | nil => exact absurd rest (cutAt_ne_nil sep cs)
        | cons first pieces =>
          rw [cutAt_cons hc rest] at h
          simp at h
  · rintro rfl
    rfl

theorem partsOf_eq (text : List Char) : partsOf text = partsOfPieces (cutAt '/' text) := by
  unfold partsOf
  split
  next h => rw [h, partsOfPieces]
  next pieces h =>
    have blank : text = [] ↔ pieces = [] := by
      have cut : cutAt '/' text = [[]] ↔ text = [] := cutAt_eq_blank
      rw [← cut, h]
      simp
    rw [h, partsOfPieces]
    simp only [blank]
  next h => rw [h, partsOfPieces]
  next piece pieces blank dot h =>
    rw [h]
    exact (partsOfPieces_plain pieces blank dot).symm

/-- Pieces that name nothing. -/
theorem partOf_eq_none {piece : List Char} :
    partOf piece = none ↔ Path.isFiller piece = true := by
  unfold partOf Path.isFiller
  split
  next h => simpa using h
  next h =>
    split
    next up => simp [up]
    next => simpa using h

theorem partOf_eq_some {piece : List Char} (h : Path.isFiller piece = false) :
    ∃ part, partOf piece = some part := by
  cases found : partOf piece with
  | some part => exact ⟨part, rfl⟩
  | none => simp [partOf_eq_none.mp found] at h

/-- A piece of text is the root only in front, and a dot is kept only there. -/
theorem partOf_ne {piece : List Char} : partOf piece ≠ some .root ∧ partOf piece ≠ some .here := by
  unfold partOf
  split
  next => simp
  next => split <;> simp

theorem partsOfPieces_append {xs : List (List Char)} (ys : List (List Char)) (ne : xs ≠ [])
    (some_ : xs ≠ [[]]) :
    partsOfPieces (xs ++ ys) = partsOfPieces xs ++ ys.filterMap partOf := by
  cases xs with
  | nil => exact absurd rfl ne
  | cons piece rest =>
    by_cases blank : piece = []
    · have more : rest ≠ [] := by
        intro h
        exact some_ (by rw [blank, h])
      simp [blank, partsOfPieces, more]
    · by_cases dot : piece = ['.']
      · simp [dot, partsOfPieces]
      · rw [List.cons_append, partsOfPieces_plain _ blank dot, partsOfPieces_plain _ blank dot,
          ← List.cons_append, List.filterMap_append]

/-- A blank piece at the end names nothing, and another text may stand in its place. -/
theorem partsOfPieces_blank_end {xs ys : List (List Char)} (ne : xs ≠ []) (more : ys ≠ []) :
    partsOfPieces (xs ++ ys) = partsOfPieces (xs ++ [[]]) ++ ys.filterMap partOf := by
  by_cases blank : xs = [[]]
  · subst blank
    simp [partsOfPieces, more, partOf]
  · rw [partsOfPieces_append ys ne blank, partsOfPieces_append [[]] ne blank]
    simp [partOf]

/-- A name that can stand between slashes. -/
def IsName (s : String) : Prop :=
  partOf s.toList = some (.name s) ∧ '/' ∉ s.toList

theorem isName_of_partOf {piece : List Char} {s : String} (h : partOf piece = some (.name s))
    (plain : '/' ∉ piece) : IsName s := by
  have text : s.toList = piece := by
    unfold partOf at h
    split at h
    next => simp at h
    next =>
      split at h
      next => simp at h
      next =>
        simp only [Option.some.injEq, Part.name.injEq] at h
        rw [← h, String.toList_ofList]
  rw [IsName, text]
  exact ⟨h, plain⟩

theorem partsOfPieces_names {names : List String} (h : ∀ s ∈ names, IsName s) :
    partsOfPieces (names.map String.toList) = names.map .name := by
  have each : ∀ ns : List String, (∀ s ∈ ns, IsName s) →
      (ns.map String.toList).filterMap partOf = ns.map .name := by
    intro ns hn
    induction ns with
    | nil => rfl
    | cons n rest ih =>
      rw [List.map_cons, List.filterMap_cons_some (hn n (by simp)).1,
        ih fun s hs => hn s (List.mem_cons_of_mem _ hs), List.map_cons]
  rw [← each names h]
  cases names with
  | nil => rfl
  | cons n rest =>
    have first := (h n (by simp)).1
    refine partsOfPieces_plain _ ?_ ?_
    · intro blank
      simp [blank, partOf] at first
    · intro dot
      simp [dot, partOf] at first

namespace Path

@[simp] theorem ofText_text (text : String) : (ofText text).text = text := rfl

@[simp] theorem ofText_parts (text : String) : (ofText text).parts = partsOf text.toList := rfl

/-- A path is given by its text. -/
theorem ext_text {p q : Path} (h : p.text = q.text) : p = q := by
  obtain ⟨text, parts, parts_eq⟩ := p
  obtain ⟨text', parts', parts_eq'⟩ := q
  simp only at h
  subst h
  rw [← parts_eq'] at parts_eq
  subst parts_eq
  rfl

theorem parts_of_pieces (p : Path) : p.parts = partsOfPieces (cutAt '/' p.text.toList) := by
  rw [p.parts_eq, partsOf_eq]

theorem beq_iff {p q : Path} : (p == q) = true ↔ p.parts = q.parts := by
  change (p.parts == q.parts) = true ↔ _
  exact beq_iff_eq

theorem beq_false_iff {p q : Path} : (p == q) = false ↔ p.parts ≠ q.parts := by
  rw [Bool.eq_false_iff, ne_eq, beq_iff]

/-- How a path is spelled does not matter to a comparison. -/
theorem beq_congr {p q : Path} (same : p.parts = q.parts) (x : Path) : (x == p) = (x == q) := by
  change (x.parts == p.parts) = (x.parts == q.parts)
  rw [same]

theorem ofPieces_parts {pieces : List (List Char)} (h : ∀ piece ∈ pieces, '/' ∉ piece) :
    (ofPieces pieces).parts = partsOfPieces pieces := by
  cases pieces with
  | nil => rfl
  | cons piece rest =>
    rw [parts_of_pieces, ofPieces, ofText_text, String.toList_ofList, cutAt_gather (by simp) h]

theorem names_plain {names : List String} (h : ∀ s ∈ names, IsName s) :
    ∀ piece ∈ names.map String.toList, '/' ∉ piece := by
  intro piece hp
  obtain ⟨s, hs, rfl⟩ := List.mem_map.mp hp
  exact (h s hs).2

theorem ofNames_parts {names : List String} (h : ∀ s ∈ names, IsName s) :
    (ofNames names).parts = names.map .name := by
  rw [ofNames, ofPieces_parts (names_plain h), partsOfPieces_names h]

/-- The pieces of the path of some names hold those names and nothing else. -/
theorem ofNames_pieces {names : List String} (h : ∀ s ∈ names, IsName s) :
    (cutAt '/' (ofNames names).text.toList).filterMap partOf = names.map .name := by
  cases names with
  | nil => rfl
  | cons n rest =>
    have parts := partsOfPieces_names h
    have first := (h n (by simp)).1
    rw [ofNames, ofPieces, ofText_text, String.toList_ofList,
      cutAt_gather (by simp) (names_plain h), ← parts, List.map_cons]
    refine (partsOfPieces_plain _ ?_ ?_).symm
    · intro blank
      simp [blank, partOf] at first
    · intro dot
      simp [dot, partOf] at first

/-- The pieces of a relative path name its parts, but for a dot in front. -/
theorem pieces_of_relative {p : Path} (relative : p.isAbsolute = false) :
    (cutAt '/' p.text.toList).filterMap partOf = p.parts.filter (· ≠ .here) := by
  have plain (pieces : List (List Char)) :
      (pieces.filterMap partOf).filter (· ≠ .here) = pieces.filterMap partOf := by
    refine List.filter_eq_self.mpr fun part hpart => ?_
    obtain ⟨piece, _, named⟩ := List.mem_filterMap.mp hpart
    refine decide_eq_true ?_
    rintro rfl
    exact partOf_ne.2 named
  rw [isAbsolute, parts_of_pieces] at relative
  rw [parts_of_pieces]
  generalize cutAt '/' p.text.toList = pieces at relative
  cases pieces with
  | nil => rfl
  | cons piece rest =>
    by_cases blank : piece = []
    · subst blank
      by_cases more : rest = []
      · subst more
        rfl
      · simp [partsOfPieces, more] at relative
    · by_cases dot : piece = ['.']
      · subst dot
        have skip : partOf ['.'] = none := by simp [partOf]
        rw [partsOfPieces, List.filterMap_cons_none skip, List.filter_cons_of_neg (by simp), plain]
      · rw [partsOfPieces_plain rest blank dot, plain]

/-- Joining puts what the pieces of a relative path name behind the parts of the directory. -/
theorem join_relative (dir : Path) {p : Path} (relative : p.isAbsolute = false) :
    (dir.join p).parts =
      if dir.text = "" then p.parts
      else dir.parts ++ (cutAt '/' p.text.toList).filterMap partOf := by
  unfold join
  rw [if_neg (by simp [relative])]
  split
  next ends =>
    cases last : dir.text.toList.getLast? with
    | none =>
      have blank : dir.text = "" := by
        simpa using List.getLast?_eq_none_iff.mp last
      rw [if_pos blank, blank, ofText_parts, p.parts_eq]
      simp
    | some c =>
      obtain ⟨front, text⟩ := List.getLast?_eq_some_iff.mp last
      have slash : c = '/' := by simpa [last] using ends
      have some_ : dir.text ≠ "" := by
        intro blank
        simp [blank] at last
      subst slash
      rw [if_neg some_, ofText_parts, String.toList_append, partsOf_eq, dir.parts_of_pieces, text,
        List.append_assoc, List.singleton_append, cutAt_append, cutAt_append]
      exact partsOfPieces_blank_end (cutAt_ne_nil _ _) (cutAt_ne_nil _ _)
  next ends =>
    have blank : cutAt '/' dir.text.toList ≠ [[]] := by
      intro blank
      rw [cutAt_eq_blank.mp blank] at ends
      simp at ends
    have some_ : dir.text ≠ "" := by
      intro none_
      simp [none_] at ends
    have text : (dir.text ++ "/" ++ p.text).toList = dir.text.toList ++ '/' :: p.text.toList := by
      simp
    rw [if_neg some_, ofText_parts, text, partsOf_eq, cutAt_append, dir.parts_of_pieces]
    exact partsOfPieces_append _ (cutAt_ne_nil _ _) blank

/-- Joining puts the names behind the parts of the directory. -/
theorem join_parts (dir : Path) {names : List String} (h : ∀ s ∈ names, IsName s) :
    (dir.join (ofNames names)).parts = dir.parts ++ names.map .name := by
  have relative : (ofNames names).isAbsolute = false := by
    rw [isAbsolute, ofNames_parts h]
    cases names <;> simp
  rw [join_relative dir relative, ofNames_pieces h]
  split
  next blank =>
    have none_ : dir.parts = [] := by
      rw [dir.parts_eq, blank]
      rfl
    rw [none_, ofNames_parts h, List.nil_append]
  next => rfl

/-- Joining goes by the parts of a path, however they are spelled. -/
theorem join_congr (dir : Path) {p q : Path} (same : p.parts = q.parts) :
    (dir.join p).parts = (dir.join q).parts := by
  have both : p.isAbsolute = q.isAbsolute := by rw [isAbsolute, isAbsolute, same]
  cases absolute : q.isAbsolute with
  | true =>
    rw [absolute] at both
    rw [join, join, if_pos both, if_pos absolute, same]
  | false =>
    rw [absolute] at both
    rw [join_relative dir both, join_relative dir absolute, pieces_of_relative both,
      pieces_of_relative absolute, same]

end Path

end StoryBuild
