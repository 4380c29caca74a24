import StoryBuild.Graph.History
import StoryBuild.Proofs.PathNames

namespace StoryBuild

/-- What a table holds for a path with the given parts. -/
def standsAt {α : Type} (table : List (Path × α)) (parts : List Part) : Option α :=
  (table.find? fun e => e.1.parts == parts).map Prod.snd

theorem lookup_eq {α : Type} (table : List (Path × α)) (p : Path) :
    table.lookup p = standsAt table p.parts := by
  induction table with
  | nil => rfl
  | cons e rest ih =>
    obtain ⟨q, a⟩ := e
    rw [List.lookup_cons, standsAt, List.find?_cons]
    by_cases same : q.parts = p.parts
    · rw [Path.beq_iff.mpr same.symm]
      simp [same]
    · rw [Path.beq_false_iff.mpr (Ne.symm same)]
      simp only [beq_eq_false_iff_ne.mpr same]
      exact ih

theorem standsAt_filter {α : Type} (table : List (Path × α)) (p : Path) (parts : List Part) :
    standsAt (table.filter fun e => !(e.1 == p)) parts =
      if p.parts = parts then none else standsAt table parts := by
  induction table with
  | nil => simp [standsAt]
  | cons e rest ih =>
    by_cases same : e.1.parts = p.parts
    · rw [List.filter_cons_of_neg (by simpa using Path.beq_iff.mpr same), ih]
      split
      next => rfl
      next other =>
        have skip : (e.1.parts == parts) = false := by
          rw [same]
          exact beq_eq_false_iff_ne.mpr other
        simp only [standsAt, List.find?_cons, skip]
    · rw [List.filter_cons_of_pos (by simpa using Path.beq_false_iff.mpr same)]
      by_cases here_ : e.1.parts = parts
      · have other : p.parts ≠ parts := by
          rintro rfl
          exact same here_
        simp [standsAt, here_, other]
      · have skip : (e.1.parts == parts) = false := beq_eq_false_iff_ne.mpr here_
        simp only [standsAt, List.find?_cons, skip] at ih ⊢
        exact ih

theorem standsAt_putAt {α : Type} (p : Path) (a : α) (table : List (Path × α))
    (parts : List Part) :
    standsAt (putAt p a table) parts =
      if p.parts = parts then some a else standsAt table parts := by
  by_cases same : p.parts = parts
  · simp [putAt, standsAt, same]
  · have skip : (p.parts == parts) = false := beq_eq_false_iff_ne.mpr same
    have rest := standsAt_filter table p parts
    rw [if_neg same] at rest ⊢
    rw [← rest]
    simp only [putAt, standsAt, List.find?_cons, skip]

theorem standsAt_removeAt {α : Type} (p : Path) (table : List (Path × α)) (parts : List Part) :
    standsAt (removeAt p table) parts = if p.parts = parts then none else standsAt table parts :=
  standsAt_filter table p parts

/-- The bytes of a file. -/
def Entry.content? : Entry → Option ByteArray
  | .file content _ => some content
  | .dir _ => none

/-- The bytes of the file at some parts. -/
def contentAt (entries : List (Path × Entry)) (parts : List Part) : Option ByteArray :=
  (standsAt entries parts).bind Entry.content?

theorem contentAt_putAt (p : Path) (e : Entry) (entries : List (Path × Entry))
    (parts : List Part) :
    contentAt (putAt p e entries) parts =
      if p.parts = parts then e.content? else contentAt entries parts := by
  rw [contentAt, standsAt_putAt]
  split <;> rfl

section View

variable {α : Type} {view : Entry → Option α} (dirs : ∀ names, view (.dir names) = none)

include dirs

/-- A directory in the place of no file changes nothing that is seen of files. -/
theorem view_putDir {p : Path} {entries : List (Path × Entry)} (names : List String)
    (no_file : (standsAt entries p.parts).bind view = none) (parts : List Part) :
    (standsAt (putAt p (.dir names) entries) parts).bind view =
      (standsAt entries parts).bind view := by
  rw [standsAt_putAt]
  split
  next same =>
    rw [← same, no_file]
    exact dirs names
  next => rfl

end View

/-- A directory in the place of no file changes no bytes. -/
theorem contentAt_putDir {p : Path} {entries : List (Path × Entry)} (names : List String)
    (no_file : contentAt entries p.parts = none) (parts : List Part) :
    contentAt (putAt p (.dir names) entries) parts = contentAt entries parts :=
  view_putDir (fun _ => rfl) names no_file parts

namespace MemoryDisk

theorem standsAt_empty (parts : List Part) :
    standsAt empty.entries parts = if parts = [.here] then some (.dir []) else none := by
  have dot : partsOf ['.'] = [.here] := by decide
  by_cases same : parts = [.here]
  · simp [standsAt, empty, dot, same]
  · have other : ([Part.here] == parts) = false := beq_eq_false_iff_ne.mpr (Ne.symm same)
    simp [standsAt, empty, dot, same, other]

/-- A directory with one more name; a file stays as it is. -/
def withName (name : String) : Entry → Entry
  | .dir names => .dir (if name ∈ names then names else names ++ [name])
  | .file content modified => .file content modified

theorem standsAt_addName (dir : Path) (name : String) (entries : List (Path × Entry))
    (parts : List Part) :
    standsAt (addName dir name entries) parts =
      if dir.parts = parts then (standsAt entries parts).map (withName name)
      else standsAt entries parts := by
  unfold addName
  rw [lookup_eq]
  split
  next names found =>
    split
    next mem =>
      split
      next same => rw [← same, found, Option.map_some, withName, if_pos mem]
      next => rfl
    next new =>
      rw [standsAt_putAt]
      split
      next same => rw [← same, found, Option.map_some, withName, if_neg new]
      next => rfl
  next other =>
    split
    next same =>
      rw [← same]
      cases found : standsAt entries dir.parts with
      | none => rfl
      | some e =>
        cases e with
        | file => rfl
        | dir names => exact absurd found (other names)
    next => rfl

section View

variable {α : Type} {view : Entry → Option α} (dirs : ∀ names, view (.dir names) = none)

include dirs

theorem view_addName (dir : Path) (name : String) (entries : List (Path × Entry))
    (parts : List Part) :
    (standsAt (addName dir name entries) parts).bind view =
      (standsAt entries parts).bind view := by
  rw [standsAt_addName]
  by_cases same : dir.parts = parts
  · rw [if_pos same]
    cases standsAt entries parts with
    | none => rfl
    | some e =>
      cases e with
      | file => rfl
      | dir names => exact (dirs _).trans (dirs names).symm
  · rw [if_neg same]

/-- Making directories touches no file. -/
theorem view_link (steps : Nat) (p : Path) (entries : List (Path × Entry)) (parts : List Part) :
    (standsAt (link steps p entries) parts).bind view = (standsAt entries parts).bind view := by
  induction steps generalizing p entries with
  | zero => rfl
  | succ steps ih =>
    unfold link
    split
    next => rfl
    next =>
      dsimp only
      split
      next => rfl
      next =>
        split
        next => exact view_addName dirs _ _ _ _
        next missing =>
          rw [lookup_eq, Bool.not_eq_true, Option.isSome_eq_false_iff,
            Option.isNone_iff_eq_none] at missing
          have no_file : (standsAt entries (holderOf p).parts).bind view = none := by
            rw [missing]
            rfl
          rw [view_addName dirs, ih, view_putDir dirs [] no_file]

end View

/-- A path that ends in a name, with what is in front of it. -/
theorem parts_of_fileName {p : Path} {name : String} (h : p.fileName? = some name) :
    ∃ base, p.parts = base ++ [.name name] := by
  unfold Path.fileName? at h
  split at h
  next s last =>
    obtain ⟨base, parts⟩ := List.getLast?_eq_some_iff.mp last
    rw [Option.some.injEq] at h
    exact ⟨base, by rw [parts, h]⟩
  next => simp at h

/-- The place for relative paths is listed nowhere. -/
theorem link_here {p : Path} (h : p.parts = [.here]) (steps : Nat) (entries : List (Path × Entry)) :
    link steps p entries = entries := by
  have unnamed : p.fileName? = none := by simp [Path.fileName?, h]
  cases steps with
  | zero => rfl
  | succ steps =>
    unfold link
    rw [unnamed]

/-- Listing a path touches the directories above it only, and there is none without parts. -/
theorem standsAt_link {p : Path} {parts : List Part} (steps : Nat) (entries : List (Path × Entry))
    (not_here : parts ≠ [.here]) (not_above : parts ≠ [] → parts <+: p.parts → parts = p.parts) :
    standsAt (link steps p entries) parts = standsAt entries parts := by
  induction steps generalizing p entries with
  | zero => rfl
  | succ steps ih =>
    unfold link
    split
    next => rfl
    next name named =>
      obtain ⟨base, ends⟩ := parts_of_fileName named
      have holder := Path.holder_parts ends
      have other : (holderOf p).parts ≠ parts := by
        rw [holder]
        split
        next => exact Ne.symm not_here
        next some_ =>
          rintro rfl
          have whole := not_above some_ ⟨[.name name], ends.symm⟩
          rw [ends] at whole
          simp at whole
      have above_holder : (holderOf p).parts ≠ [.here] →
          parts ≠ [] → parts <+: (holderOf p).parts → parts = (holderOf p).parts := by
        intro some_ more within
        rw [holder] at some_ within ⊢
        split at within
        next none_ => exact absurd (if_pos none_) some_
        next =>
          have whole := not_above more (within.trans ⟨[.name name], ends.symm⟩)
          rw [whole, ends] at within
          exact absurd within.length_le (by simp)
      dsimp only
      split
      next => rfl
      next =>
        split
        next => rw [standsAt_addName, if_neg other]
        next =>
          rw [standsAt_addName, if_neg other]
          by_cases here_ : (holderOf p).parts = [.here]
          · rw [link_here here_, standsAt_putAt, if_neg other]
          · rw [ih _ (above_holder here_), standsAt_putAt, if_neg other]

end MemoryDisk

end StoryBuild
