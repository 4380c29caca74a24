import StoryBuild.Proofs.DiskEdits

namespace StoryBuild

/-- Whether a place lies above another one. -/
def LiesOver (place a : List Part) : Prop :=
  a ≠ [] ∧ a <+: place ∧ a ≠ place

/-- Whether a directory stands at a place. -/
def DirAt (entries : List (Path × Entry)) (a : List Part) : Prop :=
  ∃ names, standsAt entries a = some (.dir names)

/-- Whether a file stands at a place. -/
def FileAt (entries : List (Path × Entry)) (a : List Part) : Prop :=
  ∃ content time, standsAt entries a = some (.file content time)

section Tables

variable {entries : List (Path × Entry)} {p : Path} {a base : List Part} {n x : String}

theorem Lists.dirAt (h : Lists entries a x) : DirAt entries a :=
  h.imp fun _ found => found.1

theorem DirAt.no_file (h : DirAt entries a) : ¬ FileAt entries a := by
  rintro ⟨content, time, file⟩
  obtain ⟨names, dir⟩ := h
  rw [dir] at file
  cases file

theorem LiesOver.snoc_ne (h : LiesOver base (a ++ [.name x])) : a ≠ base := by
  rintro rfl
  exact absurd h.2.1.length_le (by simp)

theorem liesOver_of_snoc {place : List Part} (some_ : a ≠ []) (h : a ++ [.name x] <+: place) :
    LiesOver place a := by
  refine ⟨some_, (List.prefix_append _ _).trans h, ?_⟩
  rintro rfl
  exact absurd h.length_le (by simp)

theorem lists_putFile (p : Path) (content : ByteArray) (time : Nat) :
    Lists (putAt p (.file content time) entries) a x ↔ p.parts ≠ a ∧ Lists entries a x := by
  unfold Lists
  rw [standsAt_putAt]
  split
  next same => simp [same]
  next other => simp [other]

theorem lists_putDir (none_ : standsAt entries p.parts = none) :
    Lists (putAt p (.dir []) entries) a x ↔ Lists entries a x := by
  unfold Lists
  rw [standsAt_putAt]
  split
  next same => simp [← same, none_]
  next => rfl

theorem lists_addName (dir : Path) (n : String) :
    Lists (MemoryDisk.addName dir n entries) a x ↔
      Lists entries a x ∨ dir.parts = a ∧ x = n ∧ DirAt entries a := by
  unfold Lists DirAt
  rw [MemoryDisk.standsAt_addName]
  by_cases same : dir.parts = a
  · rw [if_pos same]
    cases standsAt entries a with
    | none => simp
    | some e =>
      cases e with
      | file => simp [MemoryDisk.withName]
      | dir names =>
        by_cases old : n ∈ names
        · have given : x = n → x ∈ names := fun is => is ▸ old
          simpa [MemoryDisk.withName, old, same] using given
        · simp [MemoryDisk.withName, old, same]
  · simp [same]

theorem dirAt_addName (dir : Path) (n : String) :
    DirAt (MemoryDisk.addName dir n entries) a ↔ DirAt entries a := by
  unfold DirAt
  rw [MemoryDisk.standsAt_addName]
  split
  next =>
    cases standsAt entries a with
    | none => simp
    | some e => cases e <;> simp [MemoryDisk.withName]
  next => rfl

theorem fileAt_addName (dir : Path) (n : String) :
    FileAt (MemoryDisk.addName dir n entries) a ↔ FileAt entries a := by
  unfold FileAt
  rw [MemoryDisk.standsAt_addName]
  split
  next =>
    cases standsAt entries a with
    | none => simp
    | some e => cases e <;> simp [MemoryDisk.withName]
  next => rfl

theorem none_addName (dir : Path) (n : String) :
    standsAt (MemoryDisk.addName dir n entries) a = none ↔ standsAt entries a = none := by
  rw [MemoryDisk.standsAt_addName]
  split <;> simp

end Tables

/-- What stands at one place on two disks: nothing, files with the same bytes, directories, or a
directory on the second disk only. -/
inductive Agree (times : Nat → Nat) (onWay : Prop) : Option Entry → Option Entry → Prop where
  | none : Agree times onWay none none
  | file (content : ByteArray) (time : Nat) :
      Agree times onWay (some (.file content time)) (some (.file content (times time)))
  | dir (names names' : List String) :
      Agree times onWay (some (.dir names)) (some (.dir names'))
  | ghost (names : List String) (above : onWay) : Agree times onWay none (some (.dir names))

section Agree

variable {times : Nat → Nat} {onWay : Prop} {e e' : Option Entry}

theorem Agree.withName_left (n : String) (h : Agree times onWay e e') :
    Agree times onWay (e.map (MemoryDisk.withName n)) e' := by
  cases h with
  | none => exact .none
  | file content time => exact .file content time
  | dir names names' => exact .dir _ names'
  | ghost names above => exact .ghost names above

theorem Agree.withName_right (n : String) (h : Agree times onWay e e') :
    Agree times onWay e (e'.map (MemoryDisk.withName n)) := by
  cases h with
  | none => exact .none
  | file content time => exact .file content time
  | dir names names' => exact .dir names _
  | ghost names above => exact .ghost _ above

end Agree

/-- Two disks that are equal but for what stands at a place. Some places may be exempt: places that
are not listed yet, on the second disk or on the first. -/
structure EqualBut (times : Nat → Nat) (place : List Part) (late₂ late₁ : List Part → Prop)
    (entries₁ entries₂ : List (Path × Entry)) : Prop where
  agree : ∀ a, a ≠ place →
    Agree times (LiesOver place a) (standsAt entries₁ a) (standsAt entries₂ a)
  no_dir₁ : ¬ DirAt entries₁ place
  no_dir₂ : ¬ DirAt entries₂ place
  lists : ∀ a x, Lists entries₁ a x → Lists entries₂ a x
  /-- What only the second disk lists leads to the place. -/
  way : ∀ a x, ¬ late₁ (a ++ [.name x]) → Lists entries₂ a x → Lists entries₁ a x ∨
    a ++ [.name x] = place ∨
      LiesOver place (a ++ [.name x]) ∧ standsAt entries₁ (a ++ [.name x]) = none
  /-- A directory that stands on the second disk only is listed there, unless a file has come to
  stand above it. -/
  held : ∀ a x, ¬ late₂ (a ++ [.name x]) → LiesOver place (a ++ [.name x]) →
    standsAt entries₁ (a ++ [.name x]) = none → DirAt entries₂ (a ++ [.name x]) →
      Lists entries₂ a x ∨ FileAt entries₂ a

namespace EqualBut

variable {times : Nat → Nat} {place : List Part} {late₁ late₂ : List Part → Prop}
  {entries₁ entries₂ : List (Path × Entry)} {p : Path} {a : List Part} {n x : String}
  (h : EqualBut times place late₂ late₁ entries₁ entries₂)

include h

theorem dirAt (dir : DirAt entries₁ a) : DirAt entries₂ a := by
  have other : a ≠ place := by
    rintro rfl
    exact h.no_dir₁ dir
  obtain ⟨names, found⟩ := dir
  have agree := h.agree a other
  rw [found] at agree
  generalize hs : standsAt entries₂ a = s at agree
  cases agree with
  | dir _ names' => exact ⟨names', hs⟩

/-- A directory on the second disk is one on the first, or nothing stands there. -/
theorem dirAt_or_none (dir : DirAt entries₂ a) :
    DirAt entries₁ a ∨ standsAt entries₁ a = none ∧ LiesOver place a := by
  have other : a ≠ place := by
    rintro rfl
    exact h.no_dir₂ dir
  obtain ⟨names, found⟩ := dir
  have agree := h.agree a other
  rw [found] at agree
  generalize hs : standsAt entries₁ a = s at agree
  cases agree with
  | dir names => exact .inl ⟨names, hs⟩
  | ghost _ above => exact .inr ⟨rfl, above⟩

theorem none_left (other : a ≠ place) (none₂ : standsAt entries₂ a = none) :
    standsAt entries₁ a = none := by
  have agree := h.agree a other
  rw [none₂] at agree
  generalize standsAt entries₁ a = s at agree
  cases agree
  rfl

/-- What stands on the second disk only is a directory that leads to the place. -/
theorem dirAt_of_none (other : a ≠ place) (none₁ : standsAt entries₁ a = none)
    (some₂ : standsAt entries₂ a ≠ none) : LiesOver place a ∧ DirAt entries₂ a := by
  have agree := h.agree a other
  rw [none₁] at agree
  generalize hs : standsAt entries₂ a = s at agree some₂
  cases agree with
  | none => exact absurd rfl some₂
  | ghost names above => exact ⟨above, names, hs⟩

theorem fileAt_iff (other : a ≠ place) : FileAt entries₂ a ↔ FileAt entries₁ a := by
  have agree := h.agree a other
  unfold FileAt
  generalize standsAt entries₁ a = s, standsAt entries₂ a = t at agree
  cases agree <;> simp

/-- A name that is on its way to the place, or listed on both disks, may be listed anew. -/
theorem addName_both (dir : Path) (n : String) (present : standsAt entries₁ dir.parts ≠ none) :
    EqualBut times place late₂ late₁ (MemoryDisk.addName dir n entries₁)
      (MemoryDisk.addName dir n entries₂) where
  agree a other := by
    rw [MemoryDisk.standsAt_addName, MemoryDisk.standsAt_addName]
    split
    next => exact ((h.agree a other).withName_left n).withName_right n
    next => exact h.agree a other
  no_dir₁ := by
    rw [dirAt_addName]
    exact h.no_dir₁
  no_dir₂ := by
    rw [dirAt_addName]
    exact h.no_dir₂
  lists a x listed := by
    rw [lists_addName] at listed ⊢
    exact listed.imp (h.lists a x) fun ⟨same, is, dir⟩ => ⟨same, is, h.dirAt dir⟩
  way a x known listed := by
    rw [lists_addName] at listed ⊢
    rw [none_addName]
    rcases listed with listed | ⟨same, is, dir_there⟩
    · exact (h.way a x known listed).imp_left .inl
    · subst same
      rcases h.dirAt_or_none dir_there with dir_there | ⟨missing, -⟩
      · exact .inl (.inr ⟨rfl, is, dir_there⟩)
      · exact absurd missing present
  held a x known onWay missing dir := by
    rw [none_addName] at missing
    rw [dirAt_addName] at dir
    rw [lists_addName, fileAt_addName]
    exact (h.held a x known onWay missing dir).imp_left .inl

theorem addName_left (dir : Path) (n : String)
    (listed : DirAt entries₁ dir.parts → Lists entries₂ dir.parts n) :
    EqualBut times place late₂ late₁ (MemoryDisk.addName dir n entries₁) entries₂ where
  agree a other := by
    rw [MemoryDisk.standsAt_addName]
    split
    next => exact (h.agree a other).withName_left n
    next => exact h.agree a other
  no_dir₁ := by
    rw [dirAt_addName]
    exact h.no_dir₁
  no_dir₂ := h.no_dir₂
  lists a x added := by
    rw [lists_addName] at added
    rcases added with old | ⟨rfl, rfl, dir⟩
    · exact h.lists a x old
    · exact listed dir
  way a x known listed := by
    rw [lists_addName, none_addName]
    exact (h.way a x known listed).imp_left .inl
  held a x known onWay missing dir := by
    rw [none_addName] at missing
    exact h.held a x known onWay missing dir

theorem addName_right (dir : Path) (n : String)
    (leads : dir.parts ++ [.name n] = place ∨ LiesOver place (dir.parts ++ [.name n]) ∧
      standsAt entries₁ (dir.parts ++ [.name n]) = none) :
    EqualBut times place late₂ late₁ entries₁ (MemoryDisk.addName dir n entries₂) where
  agree a other := by
    rw [MemoryDisk.standsAt_addName]
    split
    next => exact (h.agree a other).withName_right n
    next => exact h.agree a other
  no_dir₁ := h.no_dir₁
  no_dir₂ := by
    rw [dirAt_addName]
    exact h.no_dir₂
  lists a x listed := by
    rw [lists_addName]
    exact .inl (h.lists a x listed)
  way a x known listed := by
    rw [lists_addName] at listed
    rcases listed with listed | ⟨rfl, rfl, -⟩
    · exact h.way a x known listed
    · exact .inr leads
  held a x known onWay missing dir := by
    rw [dirAt_addName] at dir
    rw [lists_addName, fileAt_addName]
    exact (h.held a x known onWay missing dir).imp_left .inl

/-- What stands at the place itself may change at will, but not to a directory. -/
theorem change_place {others₁ others₂ : List (Path × Entry)}
    (same₁ : ∀ a, a ≠ place → standsAt others₁ a = standsAt entries₁ a)
    (same₂ : ∀ a, a ≠ place → standsAt others₂ a = standsAt entries₂ a)
    (no_dir₁ : ¬ DirAt others₁ place) (no_dir₂ : ¬ DirAt others₂ place) :
    EqualBut times place late₂ late₁ others₁ others₂ := by
  have lists_iff (entries others : List (Path × Entry))
      (same : ∀ a, a ≠ place → standsAt others a = standsAt entries a)
      (none_ : ¬ DirAt entries place) (none' : ¬ DirAt others place) (a : List Part) (x : String) :
      Lists others a x ↔ Lists entries a x := by
    by_cases here_ : a = place
    · subst here_
      exact iff_of_false (fun listed => none' listed.dirAt) fun listed => none_ listed.dirAt
    · rw [Lists, same a here_]
      rfl
  have same_lists₁ := lists_iff entries₁ others₁ same₁ h.no_dir₁ no_dir₁
  have same_lists₂ := lists_iff entries₂ others₂ same₂ h.no_dir₂ no_dir₂
  refine ⟨fun a other => ?_, no_dir₁, no_dir₂, fun a x => ?_, fun a x known => ?_, ?_⟩
  · rw [same₁ a other, same₂ a other]
    exact h.agree a other
  · rw [same_lists₁, same_lists₂]
    exact h.lists a x
  · rw [same_lists₁, same_lists₂]
    refine fun listed => (h.way a x known listed).imp_right (Or.imp_right ?_)
    rintro ⟨onWay, missing⟩
    exact ⟨onWay, (same₁ _ onWay.2.2).trans missing⟩
  · intro a x known onWay missing dir
    rw [same₁ _ onWay.2.2] at missing
    rw [DirAt, same₂ _ onWay.2.2] at dir
    rw [same_lists₂, FileAt, same₂ a onWay.snoc_ne]
    exact h.held a x known onWay missing dir

/-- A new directory on the way to the place, on the second disk. It is to be listed yet. -/
theorem newDir_right (dir : Path) (onWay : LiesOver place dir.parts)
    (none₂ : standsAt entries₂ dir.parts = none) :
    EqualBut times place (fun a => a = dir.parts ∨ late₂ a) late₁ entries₁
      (putAt dir (.dir []) entries₂) where
  agree a other := by
    rw [standsAt_putAt]
    split
    next same =>
      rw [← same, h.none_left onWay.2.2 none₂]
      exact .ghost [] onWay
    next => exact h.agree a other
  no_dir₁ := h.no_dir₁
  no_dir₂ := by
    rw [DirAt, standsAt_putAt, if_neg onWay.2.2]
    exact h.no_dir₂
  lists a x listed := (lists_putDir none₂).mpr (h.lists a x listed)
  way a x known listed := h.way a x known ((lists_putDir none₂).mp listed)
  held a x known above missing there := by
    rw [not_or] at known
    rw [DirAt, standsAt_putAt, if_neg (Ne.symm known.1)] at there
    refine (h.held a x known.2 above missing there).imp (lists_putDir none₂).mpr ?_
    rintro ⟨content, time, file⟩
    have other : dir.parts ≠ a := by
      rintro rfl
      rw [none₂] at file
      cases file
    exact ⟨content, time, by rw [standsAt_putAt, if_neg other, file]⟩

/-- A directory of the second disk on the first one. It is to be listed yet. -/
theorem newDir_left (dir : Path) (none₁ : standsAt entries₁ dir.parts = none)
    (dir₂ : DirAt entries₂ dir.parts) :
    EqualBut times place late₂ (fun a => a = dir.parts ∨ late₁ a)
      (putAt dir (.dir []) entries₁) entries₂ where
  agree a other := by
    rw [standsAt_putAt]
    split
    next same =>
      subst same
      obtain ⟨names, found⟩ := dir₂
      rw [found]
      exact .dir [] names
    next => exact h.agree a other
  no_dir₁ := by
    have other : dir.parts ≠ place := by
      rintro same
      exact h.no_dir₂ (same ▸ dir₂)
    rw [DirAt, standsAt_putAt, if_neg other]
    exact h.no_dir₁
  no_dir₂ := h.no_dir₂
  lists a x listed := h.lists a x ((lists_putDir none₁).mp listed)
  way a x known listed := by
    rw [not_or] at known
    rw [lists_putDir none₁, standsAt_putAt, if_neg (Ne.symm known.1)]
    exact h.way a x known.2 listed
  held a x known above missing there := by
    refine h.held a x known above ?_ there
    rw [standsAt_putAt] at missing
    split at missing
    next => cases missing
    next => exact missing

/-- A new directory on both disks. On the way to the place it is to be listed yet. -/
theorem newDir_both {dir : Path} (other : dir.parts ≠ place)
    (none₂ : standsAt entries₂ dir.parts = none) :
    EqualBut times place late₂ (fun a => (a = dir.parts ∧ LiesOver place a) ∨ late₁ a)
      (putAt dir (.dir []) entries₁) (putAt dir (.dir []) entries₂) := by
  have none₁ := h.none_left other none₂
  refine ⟨fun a away => ?_, ?_, ?_, fun a x => ?_, fun a x known => ?_, ?_⟩
  · rw [standsAt_putAt, standsAt_putAt]
    split
    next => exact .dir [] []
    next => exact h.agree a away
  · rw [DirAt, standsAt_putAt, if_neg other]
    exact h.no_dir₁
  · rw [DirAt, standsAt_putAt, if_neg other]
    exact h.no_dir₂
  · rw [lists_putDir none₁, lists_putDir none₂]
    exact h.lists a x
  · rw [not_or] at known
    rw [lists_putDir none₁, lists_putDir none₂]
    refine fun listed => (h.way a x known.2 listed).imp_right (Or.imp_right ?_)
    rintro ⟨onWay, missing⟩
    have elsewhere : dir.parts ≠ a ++ [.name x] := fun same => known.1 ⟨same.symm, onWay⟩
    rw [standsAt_putAt, if_neg elsewhere]
    exact ⟨onWay, missing⟩
  · intro a x known above missing there
    rw [standsAt_putAt] at missing
    split at missing
    next => cases missing
    next elsewhere =>
      rw [DirAt, standsAt_putAt, if_neg elsewhere] at there
      refine (h.held a x known above missing there).imp (lists_putDir none₂).mpr ?_
      rintro ⟨content, time, file⟩
      have not_here : dir.parts ≠ a := by
        rintro rfl
        rw [none₂] at file
        cases file
      exact ⟨content, time, by rw [standsAt_putAt, if_neg not_here, file]⟩

/-- The same file on both disks. On the way to the place it is to be listed yet. -/
theorem putFile_both (p : Path) (content : ByteArray) (time : Nat) :
    EqualBut times place late₂ (fun a => (a = p.parts ∧ LiesOver place a) ∨ late₁ a)
      (putAt p (.file content time) entries₁)
      (putAt p (.file content (times time)) entries₂) := by
  have no_dir {entries : List (Path × Entry)} (none_ : ¬ DirAt entries place) (time : Nat) :
      ¬ DirAt (putAt p (.file content time) entries) place := by
    rw [DirAt, standsAt_putAt]
    split
    next => simp
    next => exact none_
  refine ⟨fun a away => ?_, no_dir h.no_dir₁ _, no_dir h.no_dir₂ _, fun a x => ?_,
    fun a x known => ?_, ?_⟩
  · rw [standsAt_putAt, standsAt_putAt]
    split
    next => exact .file content time
    next => exact h.agree a away
  · rw [lists_putFile, lists_putFile]
    exact And.imp_right (h.lists a x)
  · rw [not_or] at known
    rw [lists_putFile, lists_putFile]
    rintro ⟨elsewhere, listed⟩
    rcases h.way a x known.2 listed with old | leads | ⟨onWay, missing⟩
    · exact .inl ⟨elsewhere, old⟩
    · exact .inr (.inl leads)
    · have not_there : p.parts ≠ a ++ [.name x] := fun same => known.1 ⟨same.symm, onWay⟩
      rw [standsAt_putAt, if_neg not_there]
      exact .inr (.inr ⟨onWay, missing⟩)
  · intro a x known above missing there
    rw [standsAt_putAt] at missing
    split at missing
    next => cases missing
    next elsewhere =>
      rw [DirAt, standsAt_putAt, if_neg elsewhere] at there
      rw [lists_putFile, FileAt, standsAt_putAt]
      by_cases here_ : p.parts = a
      · exact .inr ⟨content, times time, by rw [if_pos here_]⟩
      · rw [if_neg here_]
        exact (h.held a x known above missing there).imp_left fun listed => ⟨here_, listed⟩

/-- Times may be renumbered. -/
theorem retime {times' : Nat → Nat}
    (same : ∀ a content time, standsAt entries₁ a = some (.file content time) →
      times' time = times time) : EqualBut times' place late₂ late₁ entries₁ entries₂ := by
  refine ⟨fun a other => ?_, h.no_dir₁, h.no_dir₂, h.lists, h.way, h.held⟩
  have agree := h.agree a other
  have renumbered := same a
  generalize standsAt entries₁ a = s, standsAt entries₂ a = t at agree renumbered
  cases agree with
  | none => exact .none
  | file content time => exact renumbered content time rfl ▸ .file content time
  | dir names names' => exact .dir names names'
  | ghost names above => exact .ghost names above

end EqualBut

section Listed

variable {times : Nat → Nat} {place : List Part} {late late₁ late₂ : List Part → Prop}
  {entries₁ entries₂ : List (Path × Entry)}

theorem EqualBut.listed₁
    (h : EqualBut times place late₂ (fun a => late a ∨ late₁ a) entries₁ entries₂)
    (listed : ∀ a x, late (a ++ [.name x]) → Lists entries₂ a x → Lists entries₁ a x) :
    EqualBut times place late₂ late₁ entries₁ entries₂ := by
  refine ⟨h.agree, h.no_dir₁, h.no_dir₂, h.lists, fun a x known there => ?_, h.held⟩
  by_cases recent : late (a ++ [.name x])
  · exact .inl (listed a x recent there)
  · exact h.way a x (not_or.mpr ⟨recent, known⟩) there

theorem EqualBut.listed₂
    (h : EqualBut times place (fun a => late a ∨ late₂ a) late₁ entries₁ entries₂)
    (listed : ∀ a x, late (a ++ [.name x]) → Lists entries₂ a x ∨ FileAt entries₂ a) :
    EqualBut times place late₂ late₁ entries₁ entries₂ := by
  refine ⟨h.agree, h.no_dir₁, h.no_dir₂, h.lists, h.way, fun a x known onWay missing dir => ?_⟩
  by_cases recent : late (a ++ [.name x])
  · exact listed a x recent
  · exact h.held a x (not_or.mpr ⟨recent, known⟩) onWay missing dir

end Listed

end StoryBuild
