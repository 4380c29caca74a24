import StoryBuild.DiskTree
import StoryBuild.Sandbox
import StoryBuild.Workbench
import StoryBuild.Proofs.DiskEdits
import StoryBuild.Proofs.ProjectPaths

namespace StoryBuild

namespace Storage

/-- The laws of a place that holds files. -/
class Lawful (σ : Type) [Storage σ] : Prop where
  isFile_modified : ∀ (s : σ) (p q : Path), isFile (modified s p).2 q = isFile s q
  isDir_modified : ∀ (s : σ) (p q : Path), isDir (modified s p).2 q = isDir s q
  isDir_congr : ∀ (s : σ) {p q : Path}, p.parts = q.parts → isDir s p = isDir s q
  file_or_dir : ∀ (s : σ) {p : Path} {time : Nat}, (modified s p).1 = .ok time →
    isFile s p = true ∨ isDir s p = true

end Storage

namespace MemoryDisk

theorem modified_entries (d : MemoryDisk) (p : Path) : (d.modified p).2.entries = d.entries := by
  unfold modified
  split
  next => rfl
  next => split <;> rfl

instance : Storage.Lawful MemoryDisk where
  isFile_modified d p q := by
    rw [isFile_eq, isFile_eq]
    change (contentAt (d.modified p).2.entries q.parts).isSome = _
    rw [modified_entries]
  isDir_modified d p q := by
    change (match (d.modified p).2.entries.lookup q with
      | some (.dir _) => true
      | _ => false) = Storage.isDir d q
    rw [modified_entries]
    rfl
  isDir_congr d p q same := by
    rw [Bool.eq_iff_iff, isDir_eq_true, isDir_eq_true, same]
  file_or_dir d p time read := by
    change (d.modified p).1 = .ok time at read
    unfold modified at read
    split at read
    next => cases read
    next =>
      left
      rw [isFile_eq, contentAt]
      rw [lookup_eq] at read
      split at read
      next stands => rw [stands]; rfl
      next => cases read
      next => cases read

end MemoryDisk

namespace Sandbox

instance : Storage.Lawful Sandbox where
  isFile_modified s p q := Storage.Lawful.isFile_modified s.disk p q
  isDir_modified s p q := Storage.Lawful.isDir_modified s.disk p q
  isDir_congr s _ _ same := Storage.Lawful.isDir_congr s.disk same
  file_or_dir s _ _ read := Storage.Lawful.file_or_dir s.disk read

end Sandbox

namespace Workbench

instance {σ : Type} [Machine σ] [Storage.Lawful σ] : Storage.Lawful (Workbench σ) where
  isFile_modified b p q := Storage.Lawful.isFile_modified b.machine p q
  isDir_modified b p q := Storage.Lawful.isDir_modified b.machine p q
  isDir_congr b _ _ same := Storage.Lawful.isDir_congr b.machine same
  file_or_dir b _ _ read := Storage.Lawful.file_or_dir b.machine read

end Workbench

namespace DiskTree

/-- The name that a plain part stands for in a walk. -/
def walkName (part : Part) : Option String :=
  match part with
  | .up => some ".."
  | .name s => some s
  | _ => none

/-- The names that a path is walked along are told by its parts. -/
theorem namesOf_eq (p : Path) : namesOf p.text = p.parts.filterMap walkName := by
  have plain (pieces : List (List Char)) : (pieces.filterMap partOf).filterMap walkName =
      (pieces.filter fun piece => !Path.isFiller piece).map String.ofList := by
    induction pieces with
    | nil => rfl
    | cons piece rest ih =>
      cases filler : Path.isFiller piece with
      | true =>
        rw [List.filterMap_cons_none (partOf_eq_none.mpr filler), ih,
          List.filter_cons_of_neg (by simp [filler])]
      | false =>
        have named : ∃ part, partOf piece = some part ∧
            walkName part = some (String.ofList piece) := by
          unfold partOf
          have some_ : ¬ (piece = [] ∨ piece = ['.']) := by simpa [Path.isFiller] using filler
          rw [if_neg some_]
          split
          next up => exact ⟨_, rfl, by rw [up]; rfl⟩
          next => exact ⟨_, rfl, rfl⟩
        obtain ⟨part, names, walked⟩ := named
        rw [List.filterMap_cons_some names, List.filterMap_cons_some walked, ih,
          List.filter_cons_of_pos (by simp [filler]), List.map_cons]
  rw [namesOf, p.parts_of_pieces]
  generalize cutAt '/' p.text.toList = pieces
  unfold partsOfPieces
  split
  next => rfl
  next rest =>
    split
    next none_ => rw [none_]; rfl
    next => exact (plain rest).symm
  next rest => exact (plain rest).symm
  next => exact (plain _).symm

theorem startOf_eq (place : List String) (p : Path) :
    startOf place p.text = if p.isAbsolute then [] else place := by
  have both : p.text.startsWith "/" = p.isAbsolute := by
    rw [Bool.eq_iff_iff, String.startsWith_string_iff, Path.isAbsolute, p.parts_of_pieces]
    cases p.text.toList with
    | nil => decide
    | cons c cs =>
      by_cases slash : c = '/'
      · subst slash
        rw [cutAt_cons_sep, partsOfPieces, if_neg (cutAt_ne_nil _ _)]
        exact ⟨fun _ => rfl, fun _ => ⟨cs, rfl⟩⟩
      · obtain ⟨piece, pieces, rest⟩ := List.exists_cons_of_ne_nil (cutAt_ne_nil '/' cs)
        rw [cutAt_cons slash rest]
        refine iff_of_false (fun starts => slash (List.cons_prefix_cons.mp starts).1.symm) ?_
        by_cases dot : c :: piece = ['.']
        · simp [dot, partsOfPieces]
        · rw [partsOfPieces_plain _ (by simp) dot]
          intro root
          obtain ⟨tail, found⟩ := List.head?_eq_some_iff.mp (beq_iff_eq.mp root)
          have among : Part.root ∈ ((c :: piece) :: pieces).filterMap partOf :=
            found ▸ List.mem_cons_self
          obtain ⟨piece', -, named⟩ := List.mem_filterMap.mp among
          exact partOf_ne.1 named
  rw [startOf, both]

/-- Whether a path leads to a directory goes by the walk alone. -/
theorem isDir_iff (t : DiskTree) (p : Path) : t.isDir p = true ↔ p.parts ≠ [] ∧
    ∃ place time, t.walk true linkBound (if p.isAbsolute then [] else t.here)
      (p.parts.filterMap walkName) = .ok place ∧ t.node? place = some (.dir time) := by
  have blank : p.text = "" ↔ p.parts = [] :=
    ⟨fun text => by rw [p.parts_eq, text]; rfl, Path.text_of_no_parts⟩
  unfold isDir find locate
  rw [startOf_eq, namesOf_eq, Bool.true_or, ne_eq, ← blank]
  by_cases text : p.text = ""
  · rw [if_pos text]
    exact iff_of_false nofun fun h => h.1 text
  · rw [if_neg text]
    cases walked : t.walk true linkBound (if p.isAbsolute = true then [] else t.here)
        (p.parts.filterMap walkName) with
    | error fault => exact iff_of_false nofun (by rintro ⟨-, place, time, h, -⟩; cases h)
    | ok place =>
      simp only [Except.ok.injEq, exists_and_left, exists_eq_left', text, not_false_iff, true_and]
      cases stands : t.node? place with
      | none => simp [bind, Except.bind, stands]
      | some node =>
        cases node with
        | file => cases wantsDir p.text <;> simp [bind, Except.bind, stands]
        | dir => simp [bind, Except.bind, stands]
        | link => simp [bind, Except.bind, stands]

theorem isDir_congr_parts (t : DiskTree) {p q : Path} (same : p.parts = q.parts) :
    t.isDir p = t.isDir q := by
  rw [Bool.eq_iff_iff, isDir_iff, isDir_iff, Path.isAbsolute, Path.isAbsolute, same]

instance : Storage.Lawful DiskTree where
  isFile_modified _ _ _ := rfl
  isDir_modified _ _ _ := rfl
  isDir_congr t _ _ same := t.isDir_congr_parts same
  file_or_dir t p time read := by
    change (during (.metadata p) (t.modified p)) = .ok time at read
    change t.isFile p = true ∨ t.isDir p = true
    unfold isFile isDir
    unfold modified at read
    cases found : t.find p with
    | error fault =>
      rw [found] at read
      cases read
    | ok node =>
      rw [found] at read
      cases node with
      | file => exact .inl rfl
      | dir => exact .inr rfl
      | link => cases read

end DiskTree

end StoryBuild
