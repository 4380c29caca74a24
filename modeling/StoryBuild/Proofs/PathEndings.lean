import StoryBuild.Proofs.ArtifactPlaces
import StoryBuild.Proofs.ProjectPaths

namespace StoryBuild

theorem splitName_dot {stem ending : List Char} (some_ : stem ≠ []) (plain : '.' ∉ ending) :
    splitName (stem ++ '.' :: ending) = (stem, some ending) := by
  have dotted : '.' ∈ (stem ++ '.' :: ending).drop 1 := by
    obtain ⟨c, rest, rfl⟩ := List.exists_cons_of_ne_nil some_
    simp
  have last : ((stem ++ '.' :: ending).reverse.takeWhile (· ≠ '.')).reverse = ending := by
    rw [List.reverse_append, List.reverse_cons, List.append_assoc, List.singleton_append,
      List.takeWhile_append_of_pos, List.takeWhile_cons_of_neg (by simp), List.append_nil,
      List.reverse_reverse]
    intro c hc
    refine decide_eq_true ?_
    rintro rfl
    exact plain (List.mem_reverse.mp hc)
  have length : (stem ++ '.' :: ending).length - ending.length - 1 = stem.length := by
    rw [List.length_append, List.length_cons]
    omega
  rw [splitName, if_pos dotted]
  dsimp only
  rw [last, length, List.take_left]

/-- A name with an ending is its stem, a dot and the ending. -/
theorem splitName_some {name ending : List Char} (h : (splitName name).2 = some ending) :
    name = (splitName name).1 ++ '.' :: ending ∧ (splitName name).1 ≠ [] ∧ '.' ∉ ending := by
  have dotted : '.' ∈ name.drop 1 := by
    unfold splitName at h
    split at h
    next dotted => exact dotted
    next => cases h
  -- The last dot of the name is the first one from behind.
  obtain ⟨back, front, turned, first⟩ :=
    List.eq_append_cons_of_mem (List.mem_reverse.mpr (List.mem_of_mem_drop dotted))
  have whole : name = front.reverse ++ '.' :: back.reverse := by
    simpa using congrArg List.reverse turned
  have plain : '.' ∉ back.reverse := fun among => first (List.mem_reverse.mp among)
  have some_ : front.reverse ≠ [] := by
    intro none_
    rw [whole, none_] at dotted
    exact plain (by simpa using dotted)
  have cut := splitName_dot some_ plain
  rw [whole, cut] at h ⊢
  obtain rfl := Option.some.inj h
  exact ⟨rfl, some_, plain⟩

namespace Path

/-- What stands in front of the ending of a file name. -/
def stem? (p : Path) : Option (List Char) :=
  p.fileName?.map fun name => (splitName name.toList).1

/-- The ending of a file name, in small letters. -/
def ending? (p : Path) : Option (List Char) :=
  p.extension?.map fun e => e.toList.map Char.toLower

/-- Two paths that differ at most in the case of the letters of their endings. -/
structure Twins (p q : Path) : Prop where
  dir : p.parts.dropLast = q.parts.dropLast
  stem : p.stem? = q.stem?
  ending : p.ending? = q.ending?

instance (p q : Path) : Decidable (p.Twins q) :=
  decidable_of_iff
    (p.parts.dropLast = q.parts.dropLast ∧ p.stem? = q.stem? ∧ p.ending? = q.ending?)
    ⟨fun ⟨dir, stem, ending⟩ => ⟨dir, stem, ending⟩, fun h => ⟨h.dir, h.stem, h.ending⟩⟩

theorem fileName_congr {p q : Path} (same : p.parts = q.parts) : p.fileName? = q.fileName? := by
  rw [fileName?, fileName?, same]

theorem ending_of_fileName {p q : Path} (same : p.fileName? = q.fileName?) :
    p.ending? = q.ending? := by
  rw [ending?, ending?, extension?, extension?, same]

theorem stem_of_fileName {p q : Path} (same : p.fileName? = q.fileName?) : p.stem? = q.stem? := by
  rw [stem?, stem?, same]

/-- A path with an ending ends in a name, which is the stem, a dot and the ending. -/
theorem ending_parts {p : Path} {small : List Char} (h : p.ending? = some small) :
    ∃ base stem ending, p.parts = base ++ [.name (String.ofList (stem ++ '.' :: ending))] ∧
      p.stem? = some stem ∧ stem ≠ [] ∧ ending.map Char.toLower = small := by
  obtain ⟨e, ext, lower⟩ := Option.map_eq_some_iff.mp h
  obtain ⟨name, named, split_⟩ := Option.bind_eq_some_iff.mp ext
  obtain ⟨ending, cut, rfl⟩ := Option.map_eq_some_iff.mp split_
  obtain ⟨base, parts⟩ := MemoryDisk.parts_of_fileName named
  obtain ⟨whole, some_, -⟩ := splitName_some cut
  refine ⟨base, (splitName name.toList).1, ending, ?_, ?_, some_, by simpa using lower⟩
  · rw [← whole, String.ofList_toList]
    exact parts
  · rw [stem?, named, Option.map_some]

section Endings

variable {p q : Path} {ending : String} (plain : '/' ∉ ending.toList)
  (long : 1 < ending.toList.length)

include plain long

/-- Under a new ending the directory and the stem stay. -/
theorem withExtension_stem {stem : List Char} (h : p.stem? = some stem) :
    (p.withExtension ending).parts =
      p.parts.dropLast ++ [.name (String.ofList (stem ++ '.' :: ending.toList))] := by
  obtain ⟨name, named, rfl⟩ := Option.map_eq_some_iff.mp h
  obtain ⟨base, parts⟩ := MemoryDisk.parts_of_fileName named
  rw [withExtension_parts parts plain long, parts, List.dropLast_concat]

theorem withExtension_ending (dotless : '.' ∉ ending.toList) {small : List Char}
    (h : p.ending? = some small) :
    (p.withExtension ending).ending? = some (ending.toList.map Char.toLower) := by
  obtain ⟨-, stem, -, -, stem_, some_, -⟩ := ending_parts h
  have named := fileName_of_parts (withExtension_stem plain long stem_)
  rw [ending?, extension?, named, Option.bind_some, String.toList_ofList,
    splitName_dot some_ dotless, Option.map_some, Option.map_some, String.toList_ofList]

/-- Files with endings come to lie in one place exactly if they had one directory and one stem. -/
theorem withExtension_same {small small' : List Char} (hp : p.ending? = some small)
    (hq : q.ending? = some small') :
    (p.withExtension ending).parts = (q.withExtension ending).parts ↔
      p.parts.dropLast = q.parts.dropLast ∧ p.stem? = q.stem? := by
  obtain ⟨-, stem, -, -, stem_, -, -⟩ := ending_parts hp
  obtain ⟨-, stem', -, -, stem'_, -, -⟩ := ending_parts hq
  rw [withExtension_stem plain long stem_, withExtension_stem plain long stem'_, stem_, stem'_]
  constructor
  · intro same
    obtain ⟨dir, last⟩ := List.append_inj' same rfl
    have name := Part.name.inj (List.singleton_inj.mp last)
    exact ⟨dir, congrArg some (List.append_cancel_right (String.ofList_injective name))⟩
  · rintro ⟨dir, stems⟩
    rw [dir, Option.some.inj stems]

theorem withExtension_twins {small : List Char} (hp : p.ending? = some small)
    (hq : q.ending? = some small) :
    (p.withExtension ending).parts = (q.withExtension ending).parts ↔ p.Twins q :=
  (withExtension_same plain long hp hq).trans
    ⟨fun ⟨dir, stem⟩ => ⟨dir, stem, hp.trans hq.symm⟩, fun h => ⟨h.dir, h.stem⟩⟩

end Endings

/-- Behind a front that does not change, plain parts stay what they are. -/
theorem join_behind (dir : Path) (base : List Part) : ∃ front, ∀ {q : Path} {rest : List Part},
    (∀ part ∈ rest, Plain part) → q.parts = base ++ rest →
      (dir.join q).parts = front ++ rest := by
  by_cases absolute : base.head? = some .root
  · refine ⟨base, fun {q rest} plain parts => ?_⟩
    have rooted : q.isAbsolute = true := by
      rw [isAbsolute, parts, List.head?_append, absolute]
      rfl
    rw [join, if_pos rooted, parts]
  · refine ⟨if dir.text = "" then base else dir.parts ++ base.filter (· ≠ .here),
      fun {q rest} plain parts => ?_⟩
    have relative : q.isAbsolute = false := by
      rw [isAbsolute, parts, beq_eq_false_iff_ne]
      cases base with
      | nil => exact plain_ne_root plain
      | cons part more => exact absolute
    have kept : rest.filter (· ≠ .here) = rest := by
      refine List.filter_eq_self.mpr fun part hpart => ?_
      rcases plain part hpart with rfl | ⟨s, rfl, -⟩ <;> rfl
    rw [join_relative dir relative, pieces_of_relative relative, parts, List.filter_append, kept]
    split
    next => rfl
    next => rw [List.append_assoc]

/-- A file keeps its name seen from a directory. -/
theorem join_fileName (dir : Path) {p : Path} {name : String} (h : p.fileName? = some name) :
    (dir.join p).fileName? = some name := by
  obtain ⟨base, parts⟩ := MemoryDisk.parts_of_fileName h
  obtain ⟨front, behind⟩ := dir.join_behind base
  have valid : IsName name := isName_of_mem_parts (p := p) (by simp [parts])
  exact fileName_of_parts (behind (by simpa using .inr ⟨name, rfl, valid⟩) parts)

theorem join_ending (dir : Path) {p : Path} {small : List Char} (h : p.ending? = some small) :
    (dir.join p).ending? = some small := by
  obtain ⟨base, stem, ending, parts, -⟩ := ending_parts h
  have named := fileName_of_parts parts
  rw [← h]
  exact ending_of_fileName ((dir.join_fileName named).trans named.symm)

/-- A new ending may be given before or after a file is seen from a directory. -/
theorem join_withExtension (dir : Path) {p : Path} {small : List Char} {ending : String}
    (plain : '/' ∉ ending.toList) (long : 1 < ending.toList.length) (h : p.ending? = some small) :
    (dir.join (p.withExtension ending)).parts = ((dir.join p).withExtension ending).parts := by
  obtain ⟨base, stem, old, parts, stem_, -⟩ := ending_parts h
  obtain ⟨front, behind⟩ := dir.join_behind base
  have one {q : Path} {name : String} (ends : q.parts = base ++ [.name name]) :
      (dir.join q).parts = front ++ [.name name] := by
    have valid : IsName name := isName_of_mem_parts (p := q) (by simp [ends])
    exact behind (by simpa using .inr ⟨name, rfl, valid⟩) ends
  have renamed := withExtension_stem plain long stem_
  have joined := one parts
  have named := fileName_of_parts parts
  rw [parts, List.dropLast_concat] at renamed
  rw [one renamed, withExtension_stem plain long
    ((stem_of_fileName ((dir.join_fileName named).trans named.symm)).trans stem_), joined,
    List.dropLast_concat]

end Path

end StoryBuild
