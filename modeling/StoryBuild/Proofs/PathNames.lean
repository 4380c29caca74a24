import StoryBuild.MemoryDisk
import StoryBuild.Proofs.PathParts

namespace StoryBuild.Path

/-- A path that normalizing leaves as it is. -/
def IsNormalized (p : Path) : Prop :=
  p.normalize = some p

/-- A name among the parts is named by a piece. -/
theorem piece_of_name {pieces : List (List Char)} {s : String}
    (h : .name s ∈ partsOfPieces pieces) : ∃ piece ∈ pieces, partOf piece = some (.name s) := by
  unfold partsOfPieces at h
  split at h
  next => simp at h
  next rest =>
    split at h
    next => simp at h
    next =>
      obtain ⟨piece, hp, same⟩ :=
        List.mem_filterMap.mp ((List.mem_cons.mp h).resolve_left (by simp))
      exact ⟨piece, List.mem_cons_of_mem _ hp, same⟩
  next rest =>
    obtain ⟨piece, hp, same⟩ :=
      List.mem_filterMap.mp ((List.mem_cons.mp h).resolve_left (by simp))
    exact ⟨piece, List.mem_cons_of_mem _ hp, same⟩
  next =>
    obtain ⟨piece, hp, same⟩ := List.mem_filterMap.mp h
    exact ⟨piece, hp, same⟩

theorem isName_of_mem_parts {p : Path} {s : String} (h : .name s ∈ p.parts) : IsName s := by
  rw [p.parts_of_pieces] at h
  obtain ⟨piece, hp, same⟩ := piece_of_name h
  exact isName_of_partOf same (not_mem_of_mem_cutAt hp)

/-- A walk ends with names of the path and of its start. -/
theorem mem_of_walk {names found : List String} {parts : List Part}
    (h : walk names parts = some found) : ∀ s ∈ found, s ∈ names ∨ .name s ∈ parts := by
  induction names, parts using walk.induct generalizing found with
  | case1 names =>
    rw [walk, Option.some.injEq] at h
    subst h
    exact fun s hs => .inl hs
  | case2 names rest ih =>
    rw [walk] at h
    exact fun s hs => (ih h s hs).imp_right (List.mem_cons_of_mem _)
  | case3 rest => simp [walk] at h
  | case4 n names rest ih =>
    rw [walk] at h
    exact fun s hs => (ih h s hs).imp (List.mem_cons_of_mem _) (List.mem_cons_of_mem _)
  | case5 names n rest ih =>
    rw [walk] at h
    intro s hs
    rcases ih h s hs with old | new
    · rcases List.mem_cons.mp old with rfl | old
      · exact .inr (by simp)
      · exact .inl old
    · exact .inr (List.mem_cons_of_mem _ new)
  | case6 names rest => simp [walk] at h

/-- What a walk from the base comes to is told by names. -/
theorem names_of_walk {p : Path} {found : List String} (h : walk [] p.parts = some found) :
    ∀ s ∈ found.reverse, IsName s := by
  intro s hs
  have origin := mem_of_walk h s (List.mem_reverse.mp hs)
  exact isName_of_mem_parts (origin.resolve_left List.not_mem_nil)

/-- Normalizing gives the path of the names that a walk comes to, if it comes to any. -/
theorem normalize_eq_some {p q : Path} : p.normalize = some q ↔
    ∃ found, walk [] p.parts = some found ∧ found ≠ [] ∧ q = ofNames found.reverse := by
  unfold normalize
  cases walk [] p.parts with
  | none => simp
  | some found => cases found <;> simp [eq_comm]

/-- A normalized path is the path of one or more names. -/
theorem IsNormalized.names {p : Path} (h : p.IsNormalized) :
    ∃ names, names ≠ [] ∧ (∀ s ∈ names, IsName s) ∧ p = ofNames names := by
  obtain ⟨found, walked, some_, same⟩ := normalize_eq_some.mp h
  exact ⟨found.reverse, by simpa using some_, names_of_walk walked, same⟩

/-- Paths of names are equal when their parts are. -/
theorem ofNames_injective {ns ms : List String} (hn : ∀ s ∈ ns, IsName s)
    (hm : ∀ s ∈ ms, IsName s) (h : (ofNames ns).parts = (ofNames ms).parts) : ns = ms := by
  rw [ofNames_parts hn, ofNames_parts hm] at h
  exact (List.map_inj_right fun _ _ same => Part.name.inj same).mp h

theorem IsNormalized.ext {p q : Path} (hp : p.IsNormalized) (hq : q.IsNormalized)
    (h : p.parts = q.parts) : p = q := by
  obtain ⟨ns, _, hn, rfl⟩ := hp.names
  obtain ⟨ms, _, hm, rfl⟩ := hq.names
  rw [ofNames_injective hn hm h]

/-- A normal path adds its parts to those of a directory. -/
theorem IsNormalized.join_parts {p : Path} (h : p.IsNormalized) (dir : Path) :
    (dir.join p).parts = dir.parts ++ p.parts := by
  obtain ⟨names, _, valid, rfl⟩ := h.names
  rw [Path.join_parts dir valid, ofNames_parts valid]

theorem walk_names (before names : List String) :
    walk before (names.map .name) = some (names.reverse ++ before) := by
  induction names generalizing before with
  | nil => rfl
  | cons n rest ih =>
    rw [List.map_cons, walk, ih]
    simp

theorem isNormalized_ofNames {names : List String} (ne : names ≠ [])
    (h : ∀ s ∈ names, IsName s) : (ofNames names).IsNormalized :=
  normalize_eq_some.mpr ⟨names.reverse, by rw [ofNames_parts h, walk_names, List.append_nil],
    by simpa using ne, by rw [List.reverse_reverse]⟩

theorem isNormalized_ofName {name : String} (h : IsName name) : (ofNames [name]).IsNormalized :=
  isNormalized_ofNames (by simp) (by simpa using h)

/-- What normalizing gives is normalized. -/
theorem normalize_normalized {p q : Path} (h : p.normalize = some q) : q.IsNormalized := by
  obtain ⟨found, walked, some_, rfl⟩ := normalize_eq_some.mp h
  exact isNormalized_ofNames (by simpa using some_) (names_of_walk walked)

theorem fileName_of_parts {p : Path} {base : List Part} {name : String}
    (h : p.parts = base ++ [.name name]) : p.fileName? = some name := by
  simp [fileName?, h]

theorem ofParts_names (names : List String) : ofParts (names.map .name) = ofNames names := by
  have not_root : names.map Part.name ≠ [.root] := by
    cases names <;> simp
  rw [ofParts, if_neg not_root, List.map_map]
  rfl

/-- What lies in a directory by names adds those names to it. -/
theorem stripPrefix_names {dir p : Path} {names : List String}
    (h : p.parts = dir.parts ++ names.map .name) : stripPrefix? dir p = some (ofNames names) := by
  unfold stripPrefix?
  rw [h, if_pos (by simp), List.drop_left, ofParts_names]

theorem filterMap_dropFiller (pieces : List (List Char)) :
    (dropFiller pieces).filterMap partOf = pieces.filterMap partOf := by
  have front : ∀ xs : List (List Char),
      (xs.dropWhile isFiller).filterMap partOf = xs.filterMap partOf := by
    intro xs
    induction xs with
    | nil => rfl
    | cons x rest ih =>
      by_cases filler : isFiller x = true
      · rw [List.dropWhile_cons_of_pos filler,
          List.filterMap_cons_none (partOf_eq_none.mpr filler), ih]
      · rw [List.dropWhile_cons_of_neg filler]
  rw [dropFiller, List.filterMap_reverse, front, ← List.filterMap_reverse, List.reverse_reverse]

/-- What is left is a front part of the pieces that ends in one that names something. -/
theorem dropFiller_ends {pieces : List (List Char)} (h : dropFiller pieces ≠ []) :
    ∃ front last, dropFiller pieces = front ++ [last] ∧ isFiller last = false := by
  unfold dropFiller at h ⊢
  cases kept : pieces.reverse.dropWhile isFiller with
  | nil => simp [kept] at h
  | cons last rest =>
    refine ⟨rest.reverse, last, by simp, ?_⟩
    have head := List.head?_dropWhile_not isFiller pieces.reverse
    rw [kept] at head
    simpa using head

theorem dropFiller_within (pieces : List (List Char)) : dropFiller pieces <+: pieces := by
  obtain ⟨front, h⟩ := List.dropWhile_suffix (l := pieces.reverse) isFiller
  refine ⟨front.reverse, ?_⟩
  rw [dropFiller, ← List.reverse_append, h, List.reverse_reverse]

/-- Pieces that name something have a parent, which is a front part of them without the last. -/
theorem pieceParent_spec {pieces : List (List Char)} (h : pieces.filterMap partOf ≠ []) :
    ∃ kept, pieceParent? pieces = some kept ∧ kept <+: pieces ∧
      kept.filterMap partOf = (pieces.filterMap partOf).dropLast ∧
      (kept ≠ [] → kept.filterMap partOf ≠ []) := by
  have some_ : dropFiller pieces ≠ [] := by
    intro none_
    rw [← filterMap_dropFiller, none_] at h
    exact h rfl
  obtain ⟨front, last, split_, names⟩ := dropFiller_ends some_
  obtain ⟨part, named⟩ := partOf_eq_some names
  have parent : pieceParent? pieces = some (dropFiller front) := by
    unfold pieceParent?
    rw [split_]
    split
    next none_ => simp at none_
    next => rw [List.dropLast_concat]
  refine ⟨dropFiller front, parent, ?_, ?_, ?_⟩
  · have inner : front <+: dropFiller pieces := ⟨[last], split_.symm⟩
    exact (dropFiller_within front).trans (inner.trans (dropFiller_within pieces))
  · rw [filterMap_dropFiller, ← filterMap_dropFiller pieces, split_, List.filterMap_append]
    simp [named]
  · intro more none_
    obtain ⟨front', last', split', names'⟩ := dropFiller_ends more
    rw [split', List.filterMap_append] at none_
    obtain ⟨part, named'⟩ := partOf_eq_some names'
    simp [named'] at none_

/-- What follows an anchor ends in the last part, if that is another one. -/
theorem behind_anchor {anchor last : Part} {rest base : List Part} (other : anchor ≠ last)
    (h : anchor :: rest = base ++ [last]) : rest ≠ [] ∧ base = anchor :: rest.dropLast := by
  have more : rest ≠ [] := by
    rintro rfl
    have ends := congrArg List.getLast? h
    simp at ends
    exact other ends
  refine ⟨more, ?_⟩
  have front := congrArg List.dropLast h
  rw [List.dropLast_concat, List.dropLast_cons_of_ne_nil more] at front
  exact front.symm

section Parent

variable {p : Path} {base : List Part} {last : Part} {rest : List (List Char)}

theorem parent_of_root (pieces : cutAt '/' p.text.toList = [] :: rest) (other : .root ≠ last)
    (h : p.parts = base ++ [last]) :
    base ≠ [] ∧ ∃ q, p.parent? = some q ∧ q.parts = base := by
  have some_ : rest ≠ [] := by
    rintro rfl
    rw [p.parts_of_pieces, pieces] at h
    simp [partsOfPieces] at h
  have anchored : p.parts = .root :: rest.filterMap partOf := by
    rw [p.parts_of_pieces, pieces, partsOfPieces, if_neg some_]
  obtain ⟨more, rfl⟩ := behind_anchor other (anchored.symm.trans h)
  obtain ⟨kept, parent, inner, names, _⟩ := pieceParent_spec more
  refine ⟨by simp, if kept = [] then ofText "/" else ofPieces ([] :: kept), ?_, ?_⟩
  · simp only [parent?, anchored, pieces, parent, Option.map_some]
  · rw [← names]
    split
    next none_ =>
      rw [none_]
      rfl
    next none_ =>
      have plain : ∀ piece ∈ [] :: kept, '/' ∉ piece := by
        intro piece hp
        have among : piece ∈ cutAt '/' p.text.toList := by
          rw [pieces]
          exact (List.cons_prefix_cons.mpr ⟨rfl, inner⟩).subset hp
        exact not_mem_of_mem_cutAt among
      rw [ofPieces_parts plain, partsOfPieces, if_neg none_]

theorem parent_of_dot (pieces : cutAt '/' p.text.toList = ['.'] :: rest) (other : .here ≠ last)
    (h : p.parts = base ++ [last]) :
    base ≠ [] ∧ ∃ q, p.parent? = some q ∧ q.parts = base := by
  have anchored : p.parts = .here :: rest.filterMap partOf := by
    rw [p.parts_of_pieces, pieces, partsOfPieces]
  obtain ⟨more, rfl⟩ := behind_anchor other (anchored.symm.trans h)
  obtain ⟨kept, parent, inner, names, _⟩ := pieceParent_spec more
  refine ⟨by simp, ofPieces (['.'] :: kept), ?_, ?_⟩
  · simp only [parent?, anchored, pieces, parent]
  · have plain : ∀ piece ∈ ['.'] :: kept, '/' ∉ piece := by
      intro piece hp
      have among : piece ∈ cutAt '/' p.text.toList := by
        rw [pieces]
        exact (List.cons_prefix_cons.mpr ⟨rfl, inner⟩).subset hp
      exact not_mem_of_mem_cutAt among
    rw [ofPieces_parts plain, partsOfPieces, names]

/-- A path without an anchor. Its parent may be the empty path. -/
theorem parent_of_plain {piece : List Char} (pieces : cutAt '/' p.text.toList = piece :: rest)
    (blank : piece ≠ []) (dot : piece ≠ ['.']) (h : p.parts = base ++ [last]) :
    ∃ q, p.parent? = some q ∧ q.parts = base ∧ (base = [] → q.text = "") := by
  have free : p.parts = (piece :: rest).filterMap partOf := by
    rw [p.parts_of_pieces, pieces, partsOfPieces_plain rest blank dot]
  have some_ : (piece :: rest).filterMap partOf ≠ [] := by
    rw [← free, h]
    simp
  obtain ⟨kept, parent, inner, names, named⟩ := pieceParent_spec some_
  have front : kept.filterMap partOf = base := by
    rw [names, ← free, h, List.dropLast_concat]
  have plain : ∀ piece ∈ kept, '/' ∉ piece := by
    intro q hq
    have among : q ∈ cutAt '/' p.text.toList := by
      rw [pieces]
      exact inner.subset hq
    exact not_mem_of_mem_cutAt among
  have unanchored : ∀ part ∈ p.parts, part ≠ .root ∧ part ≠ .here := by
    rw [free]
    intro part hpart
    obtain ⟨q, _, found⟩ := List.mem_filterMap.mp hpart
    constructor
    · rintro rfl
      exact partOf_ne.1 found
    · rintro rfl
      exact partOf_ne.2 found
  refine ⟨ofPieces kept, ?_, ?_, ?_⟩
  · unfold parent?
    rw [pieces]
    dsimp only
    split
    next none_ => simp [none_] at h
    next root_ _ => exact absurd rfl (unanchored .root (by simp [root_])).1
    next here_ _ => exact absurd rfl (unanchored .here (by simp [here_])).2
    next => rw [parent, Option.map_some]
  · rw [ofPieces_parts plain, ← front]
    cases kept with
    | nil => rfl
    | cons first more =>
      obtain ⟨rfl, _⟩ := List.cons_prefix_cons.mp inner
      exact partsOfPieces_plain more blank dot
  · intro none_
    cases kept with
    | nil => rfl
    | cons => exact absurd (front.trans none_) (named (by simp))

/-- The parent of a path that ends in a name or a step up has the parts in front of the last. -/
theorem parent_of_last (root : .root ≠ last) (here_ : .here ≠ last) (h : p.parts = base ++ [last]) :
    ∃ q, p.parent? = some q ∧ q.parts = base ∧ (base = [] → q.text = "") := by
  cases pieces : cutAt '/' p.text.toList with
  | nil => exact absurd pieces (cutAt_ne_nil _ _)
  | cons piece rest =>
    by_cases blank : piece = []
    · obtain ⟨some_, q, parent, parts⟩ := parent_of_root (blank ▸ pieces) root h
      exact ⟨q, parent, parts, fun none_ => absurd none_ some_⟩
    · by_cases dot : piece = ['.']
      · obtain ⟨some_, q, parent, parts⟩ := parent_of_dot (dot ▸ pieces) here_ h
        exact ⟨q, parent, parts, fun none_ => absurd none_ some_⟩
      · exact parent_of_plain pieces blank dot h

end Parent

theorem pieceParent_of_filler {pieces : List (List Char)} (h : pieces.filterMap partOf = []) :
    pieceParent? pieces = none := by
  have none_ : dropFiller pieces = [] := by
    refine Classical.byContradiction fun some_ => ?_
    obtain ⟨front, last, split_, names⟩ := dropFiller_ends some_
    obtain ⟨part, named⟩ := partOf_eq_some names
    rw [← filterMap_dropFiller, split_] at h
    simp [named] at h
  rw [pieceParent?, none_]

/-- Pieces name no anchor, so a parent is found for the last that they name. -/
theorem named_ends (pieces : List (List Char)) : pieces.filterMap partOf = [] ∨
    ∃ base last, pieces.filterMap partOf = base ++ [last] ∧ .root ≠ last ∧ .here ≠ last := by
  rcases List.eq_nil_or_concat (pieces.filterMap partOf) with none_ | ⟨base, last, ends⟩
  · exact .inl none_
  · rw [List.concat_eq_append] at ends
    obtain ⟨piece, -, named⟩ := List.mem_filterMap.mp (ends ▸ List.mem_concat_self)
    refine .inr ⟨base, last, ends, ?_, ?_⟩
    · rintro rfl
      exact partOf_ne.1 named
    · rintro rfl
      exact partOf_ne.2 named

/-- The directory of a path has all its parts but the last. -/
theorem dirOf_parts (p : Path) : p.dirOf.parts = p.parts.dropLast := by
  have above (base : List Part) {last : Part} (ends : p.parts = base ++ [last])
      (root : .root ≠ last) (here_ : .here ≠ last) : p.dirOf.parts = p.parts.dropLast := by
    obtain ⟨q, parent, parts, -⟩ := parent_of_last root here_ ends
    rw [dirOf, parent, Option.getD_some, parts, ends, List.dropLast_concat]
  have nothing : partsOf [] = [] := rfl
  cases pieces : cutAt '/' p.text.toList with
  | nil => exact absurd pieces (cutAt_ne_nil _ _)
  | cons piece rest =>
    have parts := p.parts_of_pieces
    rw [pieces] at parts
    by_cases blank : piece = []
    · subst blank
      rw [partsOfPieces] at parts
      split at parts
      next => simp [dirOf, parent?, parts, nothing]
      next =>
        rcases named_ends rest with none_ | ⟨base, last, ends, root, here_⟩
        · rw [none_] at parts
          simp [dirOf, parent?, parts, pieces, pieceParent_of_filler none_, nothing]
        · rw [ends] at parts
          exact above (.root :: base) parts root here_
    · by_cases dot : piece = ['.']
      · subst dot
        rw [partsOfPieces] at parts
        rcases named_ends rest with none_ | ⟨base, last, ends, root, here_⟩
        · rw [none_] at parts
          simp [dirOf, parent?, parts, pieces, pieceParent_of_filler none_, nothing]
        · rw [ends] at parts
          exact above (.here :: base) parts root here_
      · rw [partsOfPieces_plain rest blank dot] at parts
        rcases named_ends (piece :: rest) with none_ | ⟨base, last, ends, root, here_⟩
        · rw [none_] at parts
          simp [dirOf, parent?, parts, nothing]
        · rw [ends] at parts
          exact above base parts root here_

/-- The directory that lists a path has the parts in front of the name; the place for relative
paths stands in for none. -/
theorem holder_parts {p : Path} {base : List Part} {name : String}
    (h : p.parts = base ++ [.name name]) :
    (MemoryDisk.holderOf p).parts = if base = [] then [.here] else base := by
  obtain ⟨q, parent, parts, blank⟩ := parent_of_last (by simp) (by simp) h
  rw [MemoryDisk.holderOf, parent]
  dsimp only
  by_cases none_ : base = []
  · rw [if_pos (blank none_), if_pos none_]
    rfl
  · have some_ : q.text ≠ "" := by
      intro text
      rw [q.parts_eq, text] at parts
      exact none_ parts.symm
    rw [if_neg some_, if_neg none_, parts]

end StoryBuild.Path
