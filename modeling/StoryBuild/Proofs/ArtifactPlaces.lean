import StoryBuild.Graph.Basic
import StoryBuild.Proofs.DiskEntries

namespace StoryBuild

/-- What stands in front of the last piece is told by the pieces in front of it. -/
theorem partsOfPieces_concat (front : List (List Char)) {piece : List Char} {part : Part}
    (named : partOf piece = some part) :
    partsOfPieces (front ++ [piece]) =
      (if front = [] then [] else partsOfPieces (front ++ [[]])) ++ [part] := by
  have one : [piece].filterMap partOf = [part] := List.filterMap_cons_some named
  split
  next none_ =>
    have names : Path.isFiller piece = false := by
      rw [Bool.eq_false_iff, ne_eq, ← partOf_eq_none, named]
      simp
    simp only [Path.isFiller, Bool.or_eq_false_iff, beq_eq_false_iff_ne] at names
    rw [none_, List.nil_append, List.nil_append, partsOfPieces_plain [] names.1 names.2, one]
  next some_ => rw [partsOfPieces_blank_end some_ (List.cons_ne_nil _ _), one]

namespace Path

/-- Pieces at the end that name nothing may be left out. -/
theorem partsOfPieces_dropFiller {pieces : List (List Char)} (h : dropFiller pieces ≠ []) :
    partsOfPieces pieces = partsOfPieces (dropFiller pieces) := by
  obtain ⟨front, last, ends, names⟩ := dropFiller_ends h
  have named := filterMap_dropFiller pieces
  have not_blank : dropFiller pieces ≠ [[]] := by
    intro blank
    rw [blank] at ends
    have last' := congrArg List.getLast? ends
    simp only [List.getLast?_singleton, List.getLast?_concat, Option.some.injEq] at last'
    simp [← last', isFiller] at names
  obtain ⟨tail, whole⟩ := dropFiller_within pieces
  generalize dropFiller pieces = kept at h whole named not_blank
  subst whole
  rw [List.filterMap_append] at named
  have nothing : tail.filterMap partOf = [] := by simpa using named
  rw [partsOfPieces_append tail h not_blank, nothing, List.append_nil]

/-- Another extension changes the last name only. -/
theorem withExtension_parts {p : Path} {base : List Part} {name ending : String}
    (h : p.parts = base ++ [.name name]) (plain : '/' ∉ ending.toList)
    (long : 1 < ending.toList.length) :
    (p.withExtension ending).parts =
      base ++ [.name (String.ofList ((splitName name.toList).1 ++ '.' :: ending.toList))] := by
  have mem : .name name ∈ p.parts := by simp [h]
  have is_name := isName_of_mem_parts mem
  have some_ : dropFiller (cutAt '/' p.text.toList) ≠ [] := by
    intro none_
    obtain ⟨piece, hp, named⟩ := piece_of_name (p.parts_of_pieces ▸ mem)
    have kept := filterMap_dropFiller (cutAt '/' p.text.toList)
    rw [none_] at kept
    exact absurd (List.mem_filterMap.mpr ⟨piece, hp, named⟩) (by simp [← kept])
  obtain ⟨front, last, ends, names⟩ := dropFiller_ends some_
  have pieces := p.parts_of_pieces
  rw [partsOfPieces_dropFiller some_, ends, h] at pieces
  obtain ⟨part, named⟩ := partOf_eq_some names
  rw [partsOfPieces_concat front named] at pieces
  obtain ⟨base_eq, -⟩ := List.append_inj' pieces rfl
  rw [base_eq]
  -- What is put in place of the last name is a name again.
  have stem : (splitName name.toList).1 ⊆ name.toList := by
    unfold splitName
    split
    next => exact List.take_subset _ _
    next => exact List.Subset.refl _
  have plain_last : '/' ∉ (splitName name.toList).1 ++ '.' :: ending.toList := by
    rw [List.mem_append, List.mem_cons, not_or, not_or]
    exact ⟨fun slash => is_name.2 (stem slash), by decide, plain⟩
  have length : 2 < ((splitName name.toList).1 ++ '.' :: ending.toList).length := by
    rw [List.length_append, List.length_cons]
    omega
  unfold withExtension
  rw [fileName_of_parts h]
  dsimp only
  rw [ends, List.dropLast_concat]
  generalize (splitName name.toList).1 ++ '.' :: ending.toList = piece at plain_last length
  have renamed : partOf piece = some (.name (String.ofList piece)) := by
    unfold partOf
    rw [if_neg, if_neg]
    · rintro rfl
      simp at length
    · rintro (rfl | rfl) <;> simp at length
  rw [ofPieces_parts, partsOfPieces_concat front renamed]
  intro x hx
  rcases List.mem_append.mp hx with hx | hx
  · refine not_mem_of_mem_cutAt ((dropFiller_within (cutAt '/' p.text.toList)).subset ?_)
    rw [ends]
    exact List.mem_append_left _ hx
  · rw [List.mem_singleton.mp hx]
    exact plain_last

theorem withExtension_congr {p q : Path} {ending : String} (plain : '/' ∉ ending.toList)
    (long : 1 < ending.toList.length) (same : p.parts = q.parts) :
    (p.withExtension ending).parts = (q.withExtension ending).parts := by
  have named : p.fileName? = q.fileName? := by rw [fileName?, fileName?, same]
  cases found : q.fileName? with
  | none =>
    rw [found] at named
    rw [withExtension, named, withExtension, found]
    exact same
  | some name =>
    obtain ⟨base, ends⟩ := MemoryDisk.parts_of_fileName found
    rw [withExtension_parts (same.trans ends) plain long, withExtension_parts ends plain long]

end Path

namespace FileGraph

variable {p q : Path}

theorem absolute_congr (g : FileGraph) (same : p.parts = q.parts) :
    (g.absolute p).parts = (g.absolute q).parts :=
  Path.join_congr g.root same

/-- The place of an artifact goes by the parts of its master. -/
theorem artifact_congr (g : FileGraph) (same : p.parts = q.parts) :
    (g.absolute (g.artifactPath p)).parts = (g.absolute (g.artifactPath q)).parts := by
  refine g.absolute_congr ?_
  have file : (p.withExtension "json").parts = (q.withExtension "json").parts :=
    Path.withExtension_congr (by decide) (by decide) same
  rw [artifactPath, artifactPath, GraphOptions.artifactPath, GraphOptions.artifactPath]
  split
  next dir _ => exact Path.join_congr dir file
  next => exact file

end FileGraph

end StoryBuild
