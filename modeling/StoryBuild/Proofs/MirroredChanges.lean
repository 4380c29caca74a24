import StoryBuild.Proofs.OneFileApart

namespace StoryBuild

namespace MemoryDisk

section Link

variable {q : Path} {base : List Part} {n : String} {entries : List (Path × Entry)}

theorem link_unnamed (unnamed : q.fileName? = none) (steps : Nat) :
    link steps q entries = entries := by
  cases steps with
  | zero => rfl
  | succ steps => rw [link, unnamed]

variable (ends : q.parts = base ++ [.name n]) (steps : Nat)

include ends

theorem holder_other : (holderOf q == q) = false := by
  rw [Path.beq_false_iff, Path.holder_parts ends, ends]
  split
  next none_ => simp [none_]
  next => simp

theorem link_present (present : standsAt entries (holderOf q).parts ≠ none) :
    link (steps + 1) q entries = addName (holderOf q) n entries := by
  rw [link, Path.fileName_of_parts ends]
  dsimp only
  rw [holder_other ends, if_neg (by simp), lookup_eq,
    if_pos (Option.isSome_iff_ne_none.mpr present)]

theorem link_missing (missing : standsAt entries (holderOf q).parts = none) :
    link (steps + 1) q entries =
      addName (holderOf q) n (link steps (holderOf q) (putAt (holderOf q) (.dir []) entries)) := by
  rw [link, Path.fileName_of_parts ends]
  dsimp only
  rw [holder_other ends, if_neg (by simp), lookup_eq, missing, if_neg (by simp)]

end Link

section Kept

variable {q : Path} {entries : List (Path × Entry)}

/-- Listing a path leaves nothing empty that was not so before. -/
theorem link_keeps {parts : List Part} (there : standsAt entries parts ≠ none) (steps : Nat) :
    standsAt (link steps q entries) parts ≠ none := by
  induction steps generalizing q entries with
  | zero => exact there
  | succ steps ih =>
    cases named : q.fileName? with
    | none => rwa [link_unnamed named]
    | some n =>
      obtain ⟨base, ends⟩ := parts_of_fileName named
      by_cases present : standsAt entries (holderOf q).parts = none
      · rw [link_missing ends steps present]
        refine mt (none_addName _ n).mp (ih ?_)
        rw [standsAt_putAt]
        split
        next => simp
        next => exact there
      · rw [link_present ends steps present]
        exact mt (none_addName _ n).mp there

/-- A directory that is made and then listed is there. -/
theorem link_made {q : Path} {entries : List (Path × Entry)} {parts : List Part}
    (holder : (holderOf q).parts = parts) (steps : Nat) :
    standsAt (link steps (holderOf q) (putAt (holderOf q) (.dir []) entries)) parts ≠ none :=
  link_keeps (by rw [standsAt_putAt, if_pos holder]; simp) steps

end Kept

end MemoryDisk

namespace EqualBut

variable {times : Nat → Nat} {place base : List Part} {late₁ late₂ : List Part → Prop}
  {entries₁ entries₂ : List (Path × Entry)} {q : Path} {n : String} {steps : Nat}

open MemoryDisk (link addName holderOf link_unnamed link_present link_missing link_made)

/-- No path ends in a name that has none. -/
theorem unnamed_snoc (unnamed : q.fileName? = none) (a : List Part) (x : String) :
    a ++ [.name x] ≠ q.parts := by
  intro ends
  rw [Path.fileName_of_parts ends.symm] at unnamed
  cases unnamed

theorem snoc_eq {a : List Part} {x : String} (ends : q.parts = base ++ [.name n])
    (is : a ++ [.name x] = q.parts) : a = base ∧ x = n := by
  rw [ends] at is
  obtain ⟨same, last⟩ := List.append_inj' is rfl
  exact ⟨same, by simpa using last⟩

/-- The directory of a path is a shorter path, or has no name. -/
theorem holder_short (ends : q.parts = base ++ [.name n])
    (enough : q.fileName? = none ∨ q.parts.length < steps + 1) :
    (holderOf q).fileName? = none ∨ (holderOf q).parts.length < steps := by
  have short := enough.resolve_left (by rw [Path.fileName_of_parts ends]; simp)
  have holder := Path.holder_parts ends
  split at holder
  next => exact .inl (by simp [Path.fileName?, holder])
  next =>
    rw [ends] at short
    exact .inr (by rw [holder]; simpa using short)

section Name

variable (ends : q.parts = base ++ [.name n]) (holder : (holderOf q).parts = base)

include ends holder

theorem name_right
    (leads : q.parts = place ∨ LiesOver place q.parts ∧ standsAt entries₁ q.parts = none)
    (there : standsAt entries₂ base ≠ none)
    (h : EqualBut times place (fun a => a = q.parts ∨ late₂ a) late₁ entries₁ entries₂) :
    EqualBut times place late₂ late₁ entries₁ (addName (holderOf q) n entries₂) := by
  rw [ends, ← holder] at leads
  refine (h.addName_right (holderOf q) n leads).listed₂ fun a x is => ?_
  obtain ⟨rfl, rfl⟩ := snoc_eq ends is
  rw [lists_addName, fileAt_addName, DirAt, FileAt]
  cases found : standsAt entries₂ a with
  | none => exact absurd found there
  | some e =>
    cases e with
    | file content time => exact .inr ⟨content, time, rfl⟩
    | dir names => exact .inl (.inr ⟨holder, rfl, names, rfl⟩)

theorem name_left (held : Lists entries₂ base n ∨ FileAt entries₂ base)
    (there : standsAt entries₁ base ≠ none)
    (h : EqualBut times place (fun _ => False) (fun a => a = q.parts ∨ late₁ a) entries₁
      entries₂) :
    EqualBut times place (fun _ => False) late₁ (addName (holderOf q) n entries₁) entries₂ := by
  have listed : DirAt entries₁ base → Lists entries₂ base n := fun dir =>
    held.resolve_right (h.dirAt dir).no_file
  refine (h.addName_left (holderOf q) n (holder.symm ▸ listed)).listed₁ fun a x is there₂ => ?_
  obtain ⟨rfl, rfl⟩ := snoc_eq ends is
  rw [lists_addName]
  have dir := (h.dirAt_or_none there₂.dirAt).resolve_right fun missing => there missing.1
  exact .inr ⟨holder, rfl, dir⟩

end Name

variable (absolute : place.head? = some .root)

include absolute

/-- What leads to a place from the root lies in a directory. -/
theorem base_some (within : base ++ [.name n] <+: place) : base ≠ [] := by
  rintro rfl
  obtain ⟨rest, rfl⟩ := within
  cases absolute

theorem holder_above (ends : q.parts = base ++ [.name n]) (within : q.parts <+: place) :
    (holderOf q).parts = base ∧ LiesOver place base := by
  rw [ends] at within
  have some_ := base_some absolute within
  exact ⟨by rw [Path.holder_parts ends, if_neg some_], liesOver_of_snoc some_ within⟩

theorem name_both (ends : q.parts = base ++ [.name n])
    (there : standsAt entries₁ (holderOf q).parts ≠ none)
    (h : EqualBut times place (fun _ => False) (fun a => (a = q.parts ∧ LiesOver place a) ∨ late₁ a)
      entries₁ entries₂) :
    EqualBut times place (fun _ => False) late₁ (addName (holderOf q) n entries₁)
      (addName (holderOf q) n entries₂) := by
  refine (h.addName_both (holderOf q) n there).listed₁ fun a x ⟨is, onWay⟩ there₂ => ?_
  obtain ⟨holder, -⟩ := holder_above absolute ends (is ▸ onWay.2.1)
  obtain ⟨rfl, rfl⟩ := snoc_eq ends is
  have dir₂ : DirAt entries₂ a := (dirAt_addName (holderOf q) x).mp there₂.dirAt
  rw [lists_addName]
  rw [holder] at there
  exact .inr ⟨holder, rfl, (h.dirAt_or_none dir₂).resolve_right fun missing => there missing.1⟩

/-- A directory that is made on the way to the place, on the second disk, is listed there. -/
theorem link_right (enough : q.fileName? = none ∨ q.parts.length < steps)
    (h : EqualBut times place (fun a => a = q.parts ∨ late₂ a) late₁ entries₁ entries₂)
    (leads : q.parts = place ∨ LiesOver place q.parts ∧ standsAt entries₁ q.parts = none) :
    EqualBut times place late₂ late₁ entries₁ (link steps q entries₂) := by
  induction steps generalizing q entries₂ late₂ with
  | zero =>
    have unnamed := enough.resolve_right (Nat.not_lt_zero _)
    exact h.listed₂ fun a x is => absurd is (unnamed_snoc unnamed a x)
  | succ steps ih =>
    cases named : q.fileName? with
    | none =>
      rw [link_unnamed named]
      exact h.listed₂ fun a x is => absurd is (unnamed_snoc named a x)
    | some n =>
      obtain ⟨base, ends⟩ := MemoryDisk.parts_of_fileName named
      have within : q.parts <+: place := leads.elim (fun here_ => here_ ▸ List.prefix_refl _)
        fun onWay => onWay.1.2.1
      obtain ⟨holder, above⟩ := holder_above absolute ends within
      by_cases present : standsAt entries₂ base = none
      · rw [link_missing ends steps (holder ▸ present)]
        have made := h.newDir_right (holderOf q) (holder ▸ above) (holder ▸ present)
        have listed := ih (holder_short ends enough) made
          (.inr ⟨holder ▸ above, holder ▸ h.none_left above.2.2 present⟩)
        exact name_right ends holder leads (link_made holder steps) listed
      · rw [link_present ends steps (holder ▸ present)]
        exact name_right ends holder leads present h

/-- A directory of the second disk that is made on the first one, too, is listed there. -/
theorem link_left (enough : q.fileName? = none ∨ q.parts.length < steps)
    (onWay : LiesOver place q.parts)
    (h : EqualBut times place (fun _ => False) (fun a => a = q.parts ∨ late₁ a) entries₁ entries₂)
    (held : ∀ a x, a ++ [.name x] = q.parts → Lists entries₂ a x ∨ FileAt entries₂ a) :
    EqualBut times place (fun _ => False) late₁ (link steps q entries₁) entries₂ := by
  induction steps generalizing q entries₁ late₁ with
  | zero =>
    have unnamed := enough.resolve_right (Nat.not_lt_zero _)
    exact h.listed₁ fun a x is => absurd is (unnamed_snoc unnamed a x)
  | succ steps ih =>
    cases named : q.fileName? with
    | none =>
      rw [link_unnamed named]
      exact h.listed₁ fun a x is => absurd is (unnamed_snoc named a x)
    | some n =>
      obtain ⟨base, ends⟩ := MemoryDisk.parts_of_fileName named
      obtain ⟨holder, above⟩ := holder_above absolute ends onWay.2.1
      have holds := held base n ends.symm
      by_cases present : standsAt entries₁ base = none
      · rw [link_missing ends steps (holder ▸ present)]
        have dir₂ : DirAt entries₂ base := by
          refine holds.elim Lists.dirAt fun file => ?_
          obtain ⟨content, time, found⟩ := (h.fileAt_iff above.2.2).mp file
          rw [present] at found
          cases found
        have made := h.newDir_left (holderOf q) (holder ▸ present) (holder ▸ dir₂)
        have listed := ih (holder_short ends enough) (holder ▸ above) made fun a x is => by
          rw [holder] at is
          subst is
          exact h.held a x not_false above present dir₂
        exact name_left ends holder holds (link_made holder steps) listed
      · rw [link_present ends steps (holder ▸ present)]
        exact name_left ends holder holds present h

/-- The directory of a path that is not below the place is neither there nor below. -/
theorem holder_free (ends : q.parts = base ++ [.name n])
    (free : place <+: q.parts → q.parts = place) : ¬ place <+: (holderOf q).parts := by
  rw [Path.holder_parts ends]
  split
  next =>
    intro within
    obtain ⟨rest, same⟩ := within
    cases place with
    | nil => cases absolute
    | cons part parts =>
      obtain ⟨rfl, -⟩ := List.cons.inj same
      cases absolute
  next =>
    intro within
    have here_ := free (within.trans (ends ▸ List.prefix_append _ _))
    rw [← here_, ends] at within
    exact absurd within.length_le (by simp)

/-- What is listed on both disks is listed alike. -/
theorem link_both (enough : q.fileName? = none ∨ q.parts.length < steps)
    (free : place <+: q.parts → q.parts = place)
    (h : EqualBut times place (fun _ => False) (fun a => (a = q.parts ∧ LiesOver place a) ∨ late₁ a)
      entries₁ entries₂) :
    EqualBut times place (fun _ => False) late₁ (link steps q entries₁)
      (link steps q entries₂) := by
  induction steps generalizing q entries₁ entries₂ late₁ with
  | zero =>
    have unnamed := enough.resolve_right (Nat.not_lt_zero _)
    exact h.listed₁ fun a x is => absurd is.1 (unnamed_snoc unnamed a x)
  | succ steps ih =>
    cases named : q.fileName? with
    | none =>
      rw [link_unnamed named, link_unnamed named]
      exact h.listed₁ fun a x is => absurd is.1 (unnamed_snoc named a x)
    | some n =>
      obtain ⟨base, ends⟩ := MemoryDisk.parts_of_fileName named
      have free' := holder_free absolute ends free
      have other : (holderOf q).parts ≠ place := fun same => free' (same ▸ List.prefix_refl _)
      have short := holder_short ends enough
      by_cases present : standsAt entries₁ (holderOf q).parts = none
      · rw [link_missing ends steps present]
        by_cases present₂ : standsAt entries₂ (holderOf q).parts = none
        · rw [link_missing ends steps present₂]
          have listed := ih short (fun within => absurd within free') (h.newDir_both other present₂)
          exact name_both absolute ends (link_made rfl steps) listed
        · -- The second disk has a directory here that leads to the place.
          rw [link_present ends steps present₂]
          obtain ⟨onWay, dir₂⟩ := h.dirAt_of_none other present present₂
          have made := h.newDir_left _ present dir₂
          have listed := link_left absolute short onWay made fun a x is => by
            rw [← is] at onWay present dir₂
            exact h.held a x not_false onWay present dir₂
          exact name_both absolute ends (link_made rfl steps) listed
      · have present₂ : standsAt entries₂ (holderOf q).parts ≠ none :=
          fun none₂ => present (h.none_left other none₂)
        rw [link_present ends steps present, link_present ends steps present₂]
        exact name_both absolute ends present h

end EqualBut

section Removal

variable {d : MemoryDisk} {q : Path} {a : List Part} {x : String}

/-- What the deletion of a path leaves of an entry at another place. -/
def MemoryDisk.struck (q : Path) (a : List Part) : Entry → Entry
  | .dir names => .dir (names.filter fun x => ¬ (q.fileName? = some x ∧ (holderOf q).parts = a))
  | .file content time => .file content time

theorem standsAt_remove_struck : standsAt (d.remove q).entries a =
    if q.parts = a then none else (standsAt d.entries a).map (MemoryDisk.struck q a) := by
  have untouched (free : ∀ x, ¬ (q.fileName? = some x ∧ (MemoryDisk.holderOf q).parts = a)) :
      (standsAt d.entries a).map (MemoryDisk.struck q a) = standsAt d.entries a := by
    have same : MemoryDisk.struck q a = id := by
      funext e
      cases e with
      | file => rfl
      | dir names => simp [MemoryDisk.struck, free]
    rw [same, Option.map_id, id]
  cases named : q.fileName? with
  | none =>
    rw [MemoryDisk.standsAt_remove_unnamed d named, untouched (by simp [named])]
  | some n =>
    rw [MemoryDisk.standsAt_remove_named d named]
    by_cases holds : (MemoryDisk.holderOf q).parts = a
    · have struck : MemoryDisk.struck q a = MemoryDisk.withoutName n := by
        funext e
        cases e with
        | file => rfl
        | dir names => simp [MemoryDisk.struck, MemoryDisk.withoutName, named, holds, eq_comm]
      rw [if_pos holds, struck]
    · rw [if_neg holds, untouched (by simp [holds])]

/-- What a directory lists after a deletion: all but the deleted path. -/
theorem lists_remove : Lists (d.remove q).entries a x ↔
    (q.parts ≠ a ∧ ¬ (q.fileName? = some x ∧ (MemoryDisk.holderOf q).parts = a)) ∧
      Lists d.entries a x := by
  unfold Lists
  rw [standsAt_remove_struck]
  by_cases here_ : q.parts = a
  · simp [here_]
  · rw [if_neg here_]
    cases standsAt d.entries a with
    | none => simp
    | some e =>
      cases e with
      | file => simp [MemoryDisk.struck]
      | dir names =>
        simp only [Option.map_some, MemoryDisk.struck, Option.some.injEq, Entry.dir.injEq,
          exists_eq_left', List.mem_filter, decide_eq_true_eq]
        exact ⟨fun ⟨listed, left_⟩ => ⟨⟨here_, left_⟩, listed⟩,
          fun ⟨⟨_, left_⟩, listed⟩ => ⟨listed, left_⟩⟩

theorem none_remove :
    standsAt (d.remove q).entries a = none ↔ q.parts = a ∨ standsAt d.entries a = none := by
  rw [standsAt_remove_struck]
  by_cases here_ : q.parts = a <;> simp [here_]

theorem dirAt_remove : DirAt (d.remove q).entries a ↔ q.parts ≠ a ∧ DirAt d.entries a := by
  unfold DirAt
  rw [standsAt_remove_struck]
  by_cases here_ : q.parts = a
  · simp [here_]
  · cases standsAt d.entries a with
    | none => simp
    | some e => cases e <;> simp [MemoryDisk.struck, here_]

end Removal

theorem Agree.struck {times : Nat → Nat} {onWay : Prop} {e e' : Option Entry} (q : Path)
    (a : List Part) (h : Agree times onWay e e') :
    Agree times onWay (e.map (MemoryDisk.struck q a)) (e'.map (MemoryDisk.struck q a)) := by
  cases h with
  | none => exact .none
  | file content time => exact .file content time
  | dir names names' => exact .dir _ _
  | ghost names above => exact .ghost _ above

/-- Two disks that are equal but for what stands at a place, without exemptions. -/
abbrev OneApart (times : Nat → Nat) (place : List Part) (entries₁ entries₂ : List (Path × Entry)) :
    Prop :=
  EqualBut times place (fun _ => False) (fun _ => False) entries₁ entries₂

namespace OneApart

theorem refl {place : List Part} {entries : List (Path × Entry)} (free : ¬ DirAt entries place) :
    OneApart id place entries entries where
  agree a _ := by
    cases standsAt entries a with
    | none => exact .none
    | some e =>
      cases e with
      | file content time => exact .file content time
      | dir names => exact .dir names names
  no_dir₁ := free
  no_dir₂ := free
  lists _ _ := id
  way _ _ _ := .inl
  held a x _ _ missing dir := by
    obtain ⟨names, there⟩ := dir
    rw [missing] at there
    cases there

variable {times : Nat → Nat} {place : List Part} {entries₁ entries₂ : List (Path × Entry)}
  {q : Path} (absolute : place.head? = some .root)

section Write

include absolute

/-- The same file is written on both disks, not below the place. -/
theorem write_both (h : OneApart times place entries₁ entries₂)
    (free : place <+: q.parts → q.parts = place) (content : ByteArray) (time : Nat) :
    OneApart times place
      (MemoryDisk.link (q.parts.length + 1) q (putAt q (.file content time) entries₁))
      (MemoryDisk.link (q.parts.length + 1) q (putAt q (.file content (times time)) entries₂)) :=
  EqualBut.link_both absolute (.inr (Nat.lt_succ_self _)) free (h.putFile_both q content time)

/-- A file is written at the place on the second disk. -/
theorem write_right (h : OneApart times place entries₁ entries₂) (here_ : q.parts = place)
    (content : ByteArray) (time : Nat) :
    OneApart times place entries₁
      (MemoryDisk.link (q.parts.length + 1) q (putAt q (.file content time) entries₂)) := by
  have changed : OneApart times place entries₁ (putAt q (.file content time) entries₂) := by
    refine h.change_place (fun _ _ => rfl) (fun a other => ?_) h.no_dir₁ ?_
    · rw [standsAt_putAt, if_neg (here_ ▸ Ne.symm other)]
    · rw [DirAt, standsAt_putAt, if_pos here_]
      simp
  refine EqualBut.link_right absolute (.inr (Nat.lt_succ_self _)) ?_ (.inl here_)
  exact { changed with held := fun a x known => changed.held a x fun none_ => known (.inr none_) }

end Write

section Remove

variable {d₁ d₂ : MemoryDisk}

include absolute

end Remove

end OneApart

end StoryBuild
