import Mathlib.Data.List.Basic
import StoryBuild.Proofs.PathNames

namespace StoryBuild

/-- A text without backslashes stays as it is. -/
theorem slashed_plain {text : String} (plain : '\\' ∉ text.toList) : slashed text = text := by
  have same : text.toList.map (fun c => if c = '\\' then '/' else c) = text.toList := by
    refine (List.map_congr_left fun c hc => ?_).trans (List.map_id _)
    refine if_neg ?_
    rintro rfl
    exact plain hc
  rw [slashed, same, String.ofList_toList]

namespace Path

/-- Only the empty text has no parts. -/
theorem text_of_no_parts {p : Path} (h : p.parts = []) : p.text = "" := by
  have plain {pieces : List (List Char)} (named : pieces.filterMap partOf = []) (piece : List Char)
      (hp : piece ∈ pieces) : piece = [] ∨ piece = ['.'] := by
    have none_ := List.filterMap_eq_nil_iff.mp named piece hp
    simpa [isFiller] using partOf_eq_none.mp none_
  rw [p.parts_of_pieces] at h
  suffices cutAt '/' p.text.toList = [[]] by simpa using cutAt_eq_blank.mp this
  unfold partsOfPieces at h
  split at h
  next none_ => exact absurd none_ (cutAt_ne_nil _ _)
  next rest pieces =>
    split at h
    next none_ => rw [pieces, none_]
    next => cases h
  next => cases h
  next blank dot =>
    cases pieces : cutAt '/' p.text.toList with
    | nil => exact absurd pieces (cutAt_ne_nil _ _)
    | cons first rest =>
      rw [pieces] at h
      rcases plain h first List.mem_cons_self with rfl | rfl
      · exact absurd pieces (blank rest)
      · exact absurd pieces (dot rest)

theorem normalize_congr {p q : Path} (same : p.parts = q.parts) : p.normalize = q.normalize := by
  rw [normalize, normalize, same]

/-- What an include means goes by the parts of the directory, however they are spelled. -/
theorem resolveInclude_congr {dir dir' : Path} (same : dir.parts = dir'.parts) (raw : String) :
    dir.resolveInclude raw = dir'.resolveInclude raw := by
  have blank : dir.text = "" ↔ dir'.text = "" := by
    have none_ (p : Path) : p.text = "" ↔ p.parts = [] :=
      ⟨fun text => by rw [p.parts_eq, text]; rfl, text_of_no_parts⟩
    rw [none_, none_, same]
  unfold resolveInclude
  dsimp only
  split
  next => rfl
  next relative =>
    have relative' := Bool.eq_false_iff.mpr relative
    refine normalize_congr ?_
    rw [join_relative dir relative', join_relative dir' relative', same]
    simp only [blank]

/-- An include means a normalized path. -/
theorem resolveInclude_normalized {dir t : Path} {raw : String}
    (h : dir.resolveInclude raw = some t) : t.IsNormalized := by
  unfold resolveInclude at h
  dsimp only at h
  split at h
  next => cases h
  next => exact normalize_normalized h

/-- The directory of a file goes by the parts of its path. -/
theorem dirOf_congr {p q : Path} (same : p.parts = q.parts) : p.dirOf.parts = q.dirOf.parts := by
  rw [dirOf_parts, dirOf_parts, same]

/-- A part that may stand anywhere in a path: a step up or a name. -/
def Plain (part : Part) : Prop :=
  part = .up ∨ ∃ s, part = .name s ∧ IsName s

theorem plain_of_partOf {piece : List Char} {part : Part} (named : partOf piece = some part)
    (no_slash : '/' ∉ piece) : Plain part := by
  cases part with
  | root => exact absurd named partOf_ne.1
  | here => exact absurd named partOf_ne.2
  | up => exact .inl rfl
  | name s => exact .inr ⟨s, rfl, isName_of_partOf named no_slash⟩

/-- A path is an anchor, if it has one, and plain parts. -/
theorem parts_shape (p : Path) : ∃ anchor rest, p.parts = anchor ++ rest ∧
    (anchor = [] ∨ anchor = [.root] ∨ anchor = [.here]) ∧ ∀ part ∈ rest, Plain part := by
  have plain {pieces : List (List Char)} (among : ∀ piece ∈ pieces, piece ∈ cutAt '/' p.text.toList)
      (part : Part) (hp : part ∈ pieces.filterMap partOf) : Plain part := by
    obtain ⟨piece, hpiece, named⟩ := List.mem_filterMap.mp hp
    exact plain_of_partOf named (not_mem_of_mem_cutAt (among piece hpiece))
  rw [p.parts_of_pieces]
  generalize cutAt '/' p.text.toList = pieces at plain
  unfold partsOfPieces
  split
  next => exact ⟨[], [], rfl, .inl rfl, nofun⟩
  next rest =>
    split
    next => exact ⟨[], [], rfl, .inl rfl, nofun⟩
    next => exact ⟨[.root], _, rfl, .inr (.inl rfl), plain fun _ => List.mem_cons_of_mem _⟩
  next rest => exact ⟨[.here], _, rfl, .inr (.inr rfl), plain fun _ => List.mem_cons_of_mem _⟩
  next => exact ⟨[], _, rfl, .inl rfl, plain fun _ => id⟩

section Spelling

variable {parts : List Part} (plain : ∀ part ∈ parts, Plain part)

include plain

theorem partText_plain : ∀ piece ∈ parts.map partText, '/' ∉ piece := by
  intro piece hp
  obtain ⟨part, hpart, rfl⟩ := List.mem_map.mp hp
  rcases plain part hpart with rfl | ⟨s, rfl, valid⟩
  · simp [partText]
  · exact valid.2

theorem partOf_partText : (parts.map partText).filterMap partOf = parts := by
  induction parts with
  | nil => rfl
  | cons part rest ih =>
    have own : partOf (partText part) = some part := by
      rcases plain part List.mem_cons_self with rfl | ⟨s, rfl, valid⟩
      · rfl
      · exact valid.1
    rw [List.map_cons, List.filterMap_cons_some own,
      ih fun part hp => plain part (List.mem_cons_of_mem _ hp)]

theorem partsOfPieces_of_plain : partsOfPieces (parts.map partText) = parts := by
  cases parts with
  | nil => rfl
  | cons part rest =>
    have own : partOf (partText part) ≠ none := by
      have names : ([part].map partText).filterMap partOf = [part] :=
        partOf_partText (by simpa using plain part List.mem_cons_self)
      intro none_
      simp [none_] at names
    rw [List.map_cons, partsOfPieces_plain, ← List.map_cons, partOf_partText plain]
    · intro blank
      simp [blank, partOf] at own
    · intro dot
      simp [dot, partOf] at own

theorem plain_ne_root : parts.head? ≠ some .root := by
  intro head
  obtain ⟨rest, rfl⟩ := List.head?_eq_some_iff.mp head
  rcases plain .root List.mem_cons_self with h | ⟨s, h, -⟩ <;> cases h

theorem ofParts_plain : ofParts parts = ofPieces (parts.map partText) := by
  refine if_neg ?_
  rintro rfl
  exact plain_ne_root plain rfl

theorem ofParts_plain_parts : (ofParts parts).parts = parts := by
  rw [ofParts_plain plain, ofPieces_parts (partText_plain plain), partsOfPieces_of_plain plain]

/-- Behind a directory plain parts stay what they are. -/
theorem join_plain {dir : Path} (some_ : dir.parts ≠ []) :
    (dir.join (ofParts parts)).parts = dir.parts ++ parts := by
  have named : (ofParts parts).parts = parts := ofParts_plain_parts plain
  have relative : (ofParts parts).isAbsolute = false := by
    rw [isAbsolute, named]
    simpa using plain_ne_root plain
  have text : dir.text ≠ "" := by
    intro none_
    rw [dir.parts_eq, none_] at some_
    exact some_ rfl
  have pieces : (cutAt '/' (ofParts parts).text.toList).filterMap partOf = parts := by
    rw [ofParts_plain plain, ofPieces, ofText_text, String.toList_ofList]
    cases parts with
    | nil => rfl
    | cons part rest =>
      rw [cutAt_gather (by simp) (partText_plain plain), partOf_partText plain]
  rw [join_relative dir relative, if_neg text, pieces]

end Spelling

/-- The plainest spelling of the parts of a path names these parts. -/
theorem ofParts_parts (p : Path) : (ofParts p.parts).parts = p.parts := by
  obtain ⟨anchor, rest, shape, kind, plain⟩ := p.parts_shape
  have slashless := partText_plain plain
  have anchored (part : Part) (text : '/' ∉ partText part) :
      ∀ piece ∈ partText part :: rest.map partText, '/' ∉ piece :=
    List.forall_mem_cons.mpr ⟨text, slashless⟩
  rw [shape]
  by_cases root : anchor ++ rest = [.root]
  · rw [root]
    rfl
  · rw [ofParts, if_neg root]
    rcases kind with rfl | rfl | rfl
    · rw [List.nil_append, ofPieces_parts slashless, partsOfPieces_of_plain plain]
    · have more : rest.map partText ≠ [] := by
        intro none_
        exact root (by simp [List.map_eq_nil_iff.mp none_])
      rw [List.singleton_append, List.map_cons, ofPieces_parts (anchored .root (by simp [partText])),
        partText, partsOfPieces, if_neg more, partOf_partText plain]
    · rw [List.singleton_append, List.map_cons, ofPieces_parts (anchored .here (by simp [partText])),
        partText, partsOfPieces, partOf_partText plain]

section Behind

variable {dir p : Path} {rest : List Part} (behind : p.parts = dir.parts ++ rest)

include behind

/-- Behind the first part of a path all parts are plain. -/
theorem plain_behind (some_ : dir.parts ≠ []) : ∀ part ∈ rest, Plain part := by
  obtain ⟨anchor, later, shape, kind, plain⟩ := p.parts_shape
  intro part hpart
  refine plain part ?_
  rcases List.append_eq_append_iff.mp (behind.symm.trans shape) with
    ⟨more, front, back⟩ | ⟨more, -, back⟩
  · have none_ : more = [] := by
      have short : anchor.length ≤ 1 := by rcases kind with rfl | rfl | rfl <;> simp
      rw [front, List.length_append] at short
      have long := List.length_pos_iff.mpr some_
      exact List.length_eq_zero_iff.mp (by omega)
    rwa [back, none_] at hpart
  · rw [back]
    exact List.mem_append_right _ hpart

/-- What a path adds to a directory is spelled by the parts that it adds. -/
theorem ofParts_behind : (ofParts rest).parts = rest := by
  by_cases blank : dir.parts = []
  · obtain rfl : p.parts = rest := by rw [behind, blank, List.nil_append]
    exact p.ofParts_parts
  · exact ofParts_plain_parts (plain_behind behind blank)

/-- A path below a directory is found again from what it adds to the directory. -/
theorem join_rest : (dir.join (ofParts rest)).parts = p.parts := by
  by_cases blank : dir.parts = []
  · obtain rfl : p.parts = rest := by rw [behind, blank, List.nil_append]
    rw [join, text_of_no_parts blank]
    split
    next => exact p.ofParts_parts
    next =>
      rw [if_pos (by decide), String.empty_append, ofText_parts, ← parts_eq]
      exact p.ofParts_parts
  · rw [join_plain (plain_behind behind blank) blank, behind]

end Behind

theorem stripPrefix_eq_some {dir p q : Path} :
    dir.stripPrefix? p = some q ↔ ∃ rest, p.parts = dir.parts ++ rest ∧ q = ofParts rest := by
  rw [stripPrefix?, Option.ite_none_right_eq_some, List.isPrefixOf_iff_prefix, Option.some.injEq]
  constructor
  · rintro ⟨⟨rest, whole⟩, rfl⟩
    exact ⟨rest, whole.symm, by rw [← whole, List.drop_left]⟩
  · rintro ⟨rest, whole, rfl⟩
    exact ⟨⟨rest, whole.symm⟩, by rw [whole, List.drop_left]⟩

theorem join_stripPrefix {dir p q : Path} (h : dir.stripPrefix? p = some q) :
    (dir.join q).parts = p.parts := by
  obtain ⟨rest, behind, rfl⟩ := stripPrefix_eq_some.mp h
  exact join_rest behind

end Path

/-- Whether a part is a name. -/
def Part.isName : Part → Bool
  | .name _ => true
  | _ => false

@[simp] theorem Part.isName_here : Part.here.isName = false := rfl

@[simp] theorem Part.isName_up : Part.up.isName = false := rfl

@[simp] theorem Part.isName_name (s : String) : (Part.name s).isName = true := rfl

namespace Path

variable {names found : List String} {front back parts : List Part} {p q dir : Path}

/-- The root stands in front of a path or nowhere. -/
theorem root_not_mem (relative : p.isAbsolute = false) : .root ∉ p.parts := by
  obtain ⟨anchor, rest, shape, kind, plain⟩ := p.parts_shape
  have behind : .root ∉ rest := fun mem => by
    rcases plain .root mem with h | ⟨s, h, -⟩ <;> cases h
  rcases kind with rfl | rfl | rfl
  · rwa [shape]
  · simp [isAbsolute, shape] at relative
  · simpa [shape] using behind

theorem walk_append (names : List String) (front back : List Part) :
    walk names (front ++ back) = (walk names front).bind fun inner => walk inner back := by
  induction names, front using walk.induct with
  | case1 => rfl
  | case2 names rest ih => simpa only [List.cons_append, walk] using ih
  | case3 => rfl
  | case4 name names rest ih => simpa only [List.cons_append, walk] using ih
  | case5 names s rest ih => simpa only [List.cons_append, walk] using ih
  | case6 => simp only [List.cons_append, walk, Option.bind_none]

/-- Dots do not matter to a walk. -/
theorem walk_filter (names : List String) (parts : List Part) :
    walk names (parts.filter (· ≠ .here)) = walk names parts := by
  induction names, parts using walk.induct with
  | case1 => rfl
  | case2 names rest ih => simpa [walk] using ih
  | case3 => simp [walk]
  | case4 name names rest ih => simpa [walk] using ih
  | case5 names s rest ih => simpa [walk] using ih
  | case6 => simp [walk]

/-- Every name puts one name on the stack, and every step up takes one away. -/
theorem walk_length (h : walk names parts = some found) :
    found.length + parts.count .up = names.length + parts.countP Part.isName := by
  induction names, parts using walk.induct with
  | case1 => simp_all [walk]
  | case2 names rest ih =>
    simpa using ih (by simpa only [walk] using h)
  | case3 => simp [walk] at h
  | case4 name names rest ih =>
    have later := ih (by simpa only [walk] using h)
    simp
    omega
  | case5 names s rest ih =>
    have later := ih (by simpa only [walk] using h)
    simp [List.countP_cons] at later ⊢
    omega
  | case6 => simp [walk] at h

theorem forall_prefix_cons {α : Type} {P : List α → Prop} {a : α} {rest : List α} :
    (∀ front, front <+: a :: rest → P front) ↔ P [] ∧ ∀ front, front <+: rest → P (a :: front) := by
  simp only [List.prefix_cons_iff, or_imp, forall_and, forall_eq, forall_exists_index, and_imp]
  refine and_congr_right fun _ => ⟨fun h front under => h _ front rfl under, ?_⟩
  rintro h _ front rfl under
  exact h front under

/-- A walk fails where there were more steps up than names. -/
theorem walk_isSome_iff (names : List String) (relative : .root ∉ parts) :
    (walk names parts).isSome = true ↔
      ∀ front, front <+: parts → front.count .up ≤ names.length + front.countP Part.isName := by
  induction names, parts using walk.induct with
  | case1 => simp [walk]
  | case2 names rest ih =>
    rw [walk, ih (fun mem => relative (List.mem_cons_of_mem _ mem)), forall_prefix_cons]
    simp
  | case3 rest =>
    refine iff_of_false (by simp [walk]) fun h => ?_
    have short := h [.up] (by simp)
    simp at short
  | case4 name names rest ih =>
    rw [walk, ih (fun mem => relative (List.mem_cons_of_mem _ mem)), forall_prefix_cons]
    refine ⟨fun h => ⟨Nat.zero_le _, fun front under => ?_⟩, fun h front under => ?_⟩
    · have later := h front under
      simp
      omega
    · have later := h.2 front under
      simp at later
      omega
  | case5 names s rest ih =>
    rw [walk, ih (fun mem => relative (List.mem_cons_of_mem _ mem)), forall_prefix_cons]
    refine ⟨fun h => ⟨Nat.zero_le _, fun front under => ?_⟩, fun h front under => ?_⟩
    · have later := h front under
      simp [List.countP_cons] at later ⊢
      omega
    · have later := h.2 front under
      simp [List.countP_cons] at later ⊢
      omega
  | case6 => exact absurd List.mem_cons_self relative

theorem IsNormalized.isNormal (h : p.IsNormalized) : p.IsNormal := by
  obtain ⟨names, some_, valid, rfl⟩ := h.names
  refine ⟨?_, ?_⟩
  · rw [ofNames_parts valid]
    simpa using some_
  · rw [ofNames_parts valid]
    simp

theorem IsNormal.relative (h : p.IsNormal) : p.isAbsolute = false := by
  refine Bool.eq_false_iff.mpr fun absolute => ?_
  obtain ⟨s, named⟩ := h.2 .root (List.mem_of_mem_head? (beq_iff_eq.mp absolute))
  cases named

theorem normalize_of_lost (h : walk [] p.parts = none) : p.normalize = none := by
  unfold normalize
  rw [h]

theorem normalize_isSome_iff_walk :
    p.normalize.isSome = true ↔ ∃ found, walk [] p.parts = some found ∧ found ≠ [] := by
  rw [Option.isSome_iff_exists]
  constructor
  · rintro ⟨q, meant⟩
    obtain ⟨found, walked, some_, -⟩ := normalize_eq_some.mp meant
    exact ⟨found, walked, some_⟩
  · rintro ⟨found, walked, some_⟩
    exact ⟨_, normalize_eq_some.mpr ⟨found, walked, some_, rfl⟩⟩

/-- Normalization fails on absolute paths, on paths that leave their base on the way, and on paths
that come back to it in the end. -/
theorem normalize_isSome_iff : p.normalize.isSome = true ↔
    p.isAbsolute = false ∧
      (∀ front, front <+: p.parts → front.count .up ≤ front.countP Part.isName) ∧
      p.parts.count .up < p.parts.countP Part.isName := by
  rw [normalize_isSome_iff_walk]
  constructor
  · rintro ⟨found, walked, some_⟩
    have relative : p.isAbsolute = false := by
      refine Bool.eq_false_iff.mpr fun absolute => ?_
      obtain ⟨rest, front⟩ := List.head?_eq_some_iff.mp (beq_iff_eq.mp absolute)
      simp [front, walk] at walked
    have within := (walk_isSome_iff [] (root_not_mem relative)).mp (by simp [walked])
    have length := walk_length walked
    have left := List.length_pos_iff.mpr some_
    simp only [List.length_nil, Nat.zero_add] at within length
    exact ⟨relative, within, by omega⟩
  · rintro ⟨relative, within, left⟩
    obtain ⟨found, walked⟩ := Option.isSome_iff_exists.mp <|
      (walk_isSome_iff [] (root_not_mem relative)).mpr (by simpa using within)
    have length := walk_length walked
    refine ⟨found, walked, ?_⟩
    rintro rfl
    simp only [List.length_nil, Nat.zero_add] at length
    omega

theorem exists_names (named : ∀ part ∈ p.parts, ∃ s, part = .name s) :
    ∃ names : List String, (∀ s ∈ names, IsName s) ∧ p.parts = names.map .name := by
  have spelled (parts : List Part) (each : ∀ part ∈ parts, ∃ s, part = .name s) :
      ∃ names : List String, parts = names.map .name := by
    induction parts with
    | nil => exact ⟨[], rfl⟩
    | cons part rest ih =>
      obtain ⟨s, rfl⟩ := each _ List.mem_cons_self
      obtain ⟨names, rfl⟩ := ih fun part hp => each part (List.mem_cons_of_mem _ hp)
      exact ⟨s :: names, rfl⟩
  obtain ⟨names, parts⟩ := spelled p.parts named
  refine ⟨names, fun s hs => isName_of_mem_parts (p := p) ?_, parts⟩
  rw [parts]
  exact List.mem_map_of_mem hs

/-- A text behind some steps up. -/
def stepsUp : Nat → String → String
  | 0, text => text
  | n + 1, text => "../" ++ stepsUp n text

theorem stepsUp_plain {n : Nat} {text : String} (plain : '\\' ∉ text.toList) :
    '\\' ∉ (stepsUp n text).toList := by
  induction n with
  | zero => exact plain
  | succ n ih => simpa [stepsUp] using ih

theorem cutAt_stepsUp (n : Nat) (text : String) :
    cutAt '/' (stepsUp n text).toList = List.replicate n ['.', '.'] ++ cutAt '/' text.toList := by
  induction n with
  | zero => rfl
  | succ n ih =>
    have cut : (stepsUp (n + 1) text).toList = ['.', '.'] ++ '/' :: (stepsUp n text).toList := by
      simp [stepsUp]
    rw [cut, cutAt_append, ih]
    rfl

theorem stepsUp_relative {n : Nat} (relative : p.isAbsolute = false) :
    (ofText (stepsUp n p.text)).isAbsolute = false := by
  cases n with
  | zero =>
    have same : ofText (stepsUp 0 p.text) = p := ext_text (ofText_text _)
    rwa [same]
  | succ n =>
    rw [isAbsolute, parts_of_pieces, ofText_text, cutAt_stepsUp, List.replicate_succ,
      List.cons_append, partsOfPieces_plain _ (by simp) (by simp)]
    rfl

/-- As many steps up as there are names lead back to the root. -/
theorem walk_ups (names : List String) :
    walk names (List.replicate names.length .up) = some [] := by
  induction names with
  | nil => rfl
  | cons _ names ih => exact ih

/-- An include that is not absolute means what a walk from the root through the directory comes
to. -/
theorem resolveInclude_eq (dir : Path) {raw : String}
    (relative : (ofText (slashed raw)).isAbsolute = false) :
    ∃ target : Path, dir.resolveInclude raw = target.normalize ∧ walk [] target.parts =
      walk [] (dir.parts ++ (cutAt '/' (slashed raw).toList).filterMap partOf) := by
  refine ⟨dir.join (ofText (slashed raw)), by simp [resolveInclude, relative], ?_⟩
  rw [join_relative dir relative]
  split
  next blank =>
    have none_ : dir.parts = [] := by
      rw [dir.parts_eq, blank]
      rfl
    have pieces := pieces_of_relative relative
    rw [ofText_text] at pieces
    rw [none_, List.nil_append, pieces, walk_filter]
  next => rw [ofText_text]

section StepsUp

variable {n : Nat} (base : dir.parts = names.map .name) (plain : '\\' ∉ p.text.toList)

include base plain

/-- Behind steps up a path is walked from the place that they lead to. -/
theorem resolveInclude_stepsUp (free : p.isAbsolute = false) :
    ∃ target : Path, dir.resolveInclude (stepsUp n p.text) = target.normalize ∧
      walk [] target.parts =
        (walk names.reverse (List.replicate n .up)).bind fun inner => walk inner p.parts := by
  have same : slashed (stepsUp n p.text) = stepsUp n p.text := slashed_plain (stepsUp_plain plain)
  have relative : (ofText (slashed (stepsUp n p.text))).isAbsolute = false :=
    same.symm ▸ stepsUp_relative free
  obtain ⟨target, meant, walked⟩ := resolveInclude_eq dir relative
  refine ⟨target, meant, walked.trans ?_⟩
  have ups : (List.replicate n ['.', '.']).filterMap partOf = List.replicate n .up := by
    simp [partOf]
  rw [same, cutAt_stepsUp, List.filterMap_append, ups, pieces_of_relative free, base, walk_append,
    walk_names, List.append_nil]
  simp only [Option.bind_some, walk_append, walk_filter]

/-- As many steps up as there are levels name a path from the root. -/
theorem resolveInclude_named (normal : p.IsNormal) :
    ∃ q, dir.resolveInclude (stepsUp names.length p.text) = some q ∧ q.parts = p.parts := by
  obtain ⟨below, valid, path⟩ := exists_names normal.2
  obtain ⟨target, meant, walked⟩ :=
    resolveInclude_stepsUp (n := names.length) base plain normal.relative
  rw [← List.length_reverse, walk_ups, Option.bind_some, path, walk_names,
    List.append_nil] at walked
  have some_ : below.reverse ≠ [] := by
    intro none_
    exact normal.1 (by simp [path, List.reverse_eq_nil_iff.mp none_])
  have named := normalize_eq_some.mpr ⟨_, walked, some_, rfl⟩
  rw [named, List.reverse_reverse] at meant
  exact ⟨_, meant, by rw [ofNames_parts valid, path]⟩

/-- One step up more leaves the root. -/
theorem resolveInclude_left (free : p.isAbsolute = false) :
    dir.resolveInclude (stepsUp (names.length + 1) p.text) = none := by
  obtain ⟨target, meant, walked⟩ :=
    resolveInclude_stepsUp (n := names.length + 1) base plain free
  rw [List.replicate_succ', walk_append, ← List.length_reverse, walk_ups] at walked
  rw [meant, normalize_of_lost walked]

end StepsUp

/-- Includes do not leave the project, and they can name all that is in it. What an include means
is made of names alone, at least one, and is normal. A path can be normalized if it is relative,
leaves its base nowhere, and has a name left in the end. From a directory some levels below the
root, a path of the project without backslashes is meant by its text behind that many steps up, and
one step more leads out. -/
theorem includes_stay_inside :
    (∀ (dir : Path) (raw : String) (q : Path), dir.resolveInclude raw = some q →
      q.IsNormal ∧ q.isAbsolute = false ∧ q.IsNormalized) ∧
    (∀ p : Path, p.normalize.isSome = true ↔
      p.isAbsolute = false ∧
        (∀ front, front <+: p.parts → front.count .up ≤ front.countP Part.isName) ∧
        p.parts.count .up < p.parts.countP Part.isName) ∧
    ∀ base t : Path, (∀ part ∈ base.parts, ∃ s, part = .name s) → t.IsNormal →
      '\\' ∉ t.text.toList →
      (∃ q, base.resolveInclude (stepsUp base.parts.length t.text) = some q ∧ (q == t) = true ∧
        (t.IsNormalized → q = t)) ∧
      base.resolveInclude (stepsUp (base.parts.length + 1) t.text) = none := by
  refine ⟨fun dir raw q found => ?_, fun p => normalize_isSome_iff, ?_⟩
  · have normalized := resolveInclude_normalized found
    exact ⟨normalized.isNormal, normalized.isNormal.relative, normalized⟩
  · intro base t named normal plain
    obtain ⟨names, -, dir⟩ := exists_names named
    have levels : base.parts.length = names.length := by simp [dir]
    rw [levels]
    obtain ⟨q, meant, parts⟩ := resolveInclude_named dir plain normal
    refine ⟨⟨q, meant, beq_iff.mpr parts, fun normalized => ?_⟩, ?_⟩
    · exact (resolveInclude_normalized meant).ext normalized parts
    · exact resolveInclude_left dir plain normal.relative

/-- From a chapter two levels down, two steps up and no more name the common part. -/
theorem chapter_names_common :
    ∃ q, resolveInclude (.ofText "story//one/") "../../common/vars.ink" = some q ∧
      q = .ofText "common/vars.ink" ∧
      resolveInclude (.ofText "story//one/") "../../../common/vars.ink" = none := by
  have names (part : Part) (mem : part ∈ [Part.name "story", .name "one"]) :
      ∃ s, part = .name s := by
    simp only [List.mem_cons, List.not_mem_nil, or_false] at mem
    exact mem.elim (⟨_, ·⟩) (⟨_, ·⟩)
  have normal : (ofText "common/vars.ink").IsNormalized := rfl
  obtain ⟨⟨q, meant, -, same⟩, lost⟩ := includes_stay_inside.2.2 (.ofText "story//one/")
    (.ofText "common/vars.ink") names normal.isNormal (by decide)
  exact ⟨q, meant, same normal, lost⟩

end Path

end StoryBuild
