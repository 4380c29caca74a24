import Mathlib.Order.Monotone.Basic
import StoryBuild.Proofs.ArtifactTimes
import StoryBuild.Proofs.MirroredChanges
import StoryBuild.Proofs.Owners

namespace StoryBuild

namespace MemoryDisk

section Names

variable {root : List Part} {entries : List (Path × Entry)} {q : Path}

/-- Whether what the directories below a root list is there. -/
abbrev NamesStand (root : List Part) (entries : List (Path × Entry)) : Prop :=
  Tree root entries fun _ => True

theorem namesStand_of
    (names : ∀ ns names, standsAt entries (below root ns) = some (.dir names) →
      names.Nodup ∧ ∀ x ∈ names, IsName x ∧ standsAt entries (below root (ns ++ [x])) ≠ none) :
    NamesStand root entries :=
  ⟨names, fun _ _ free => absurd trivial free⟩

theorem NamesStand.putFile (h : NamesStand root entries) (content : ByteArray) (time : Nat) :
    NamesStand root (putAt q (.file content time) entries) := by
  refine namesStand_of fun ns names found => ?_
  rw [standsAt_putAt] at found
  split at found
  next => cases found
  next =>
    obtain ⟨nodup, each⟩ := h.names ns names found
    refine ⟨nodup, fun x hx => ⟨(each x hx).1, ?_⟩⟩
    rw [standsAt_putAt]
    split
    next => simp
    next => exact (each x hx).2

theorem NamesStand.putDir (h : NamesStand root entries) :
    NamesStand root (putAt q (.dir []) entries) := by
  refine namesStand_of fun ns names found => ?_
  rw [standsAt_putAt] at found
  split at found
  next =>
    cases found
    simp
  next =>
    obtain ⟨nodup, each⟩ := h.names ns names found
    refine ⟨nodup, fun x hx => ⟨(each x hx).1, ?_⟩⟩
    rw [standsAt_putAt]
    split
    next => simp
    next => exact (each x hx).2

theorem NamesStand.touch {d : MemoryDisk} (h : NamesStand root d.entries) (q : Path) :
    NamesStand root (d.touch q).entries := by
  unfold MemoryDisk.touch
  dsimp only
  split
  next => exact h.putFile _ _
  next => exact h

theorem NamesStand.addName {dir : Path} {n : String} (h : NamesStand root entries)
    (stands : ∀ ns, dir.parts = below root ns →
      IsName n ∧ standsAt entries (below root (ns ++ [n])) ≠ none) :
    NamesStand root (addName dir n entries) := by
  refine namesStand_of fun ns names found => ?_
  have kept {parts : List Part} (there : standsAt entries parts ≠ none) :
      standsAt (MemoryDisk.addName dir n entries) parts ≠ none := mt (none_addName dir n).mp there
  rw [standsAt_addName] at found
  split at found
  next here_ =>
    obtain ⟨e, old, grown⟩ := Option.map_eq_some_iff.mp found
    cases e with
    | file => cases grown
    | dir olds =>
      obtain ⟨nodup, each⟩ := h.names ns olds old
      rw [withName, Entry.dir.injEq] at grown
      subst grown
      split
      next => exact ⟨nodup, fun x hx => ⟨(each x hx).1, kept (each x hx).2⟩⟩
      next new =>
        refine ⟨List.nodup_append.mpr ⟨nodup, by simp, ?_⟩, fun x hx => ?_⟩
        · rintro x hx y hy rfl
          rw [List.mem_singleton.mp hy] at hx
          exact new hx
        · rcases List.mem_append.mp hx with hx | hx
          · exact ⟨(each x hx).1, kept (each x hx).2⟩
          · rw [List.mem_singleton.mp hx]
            exact ⟨(stands ns here_).1, kept (stands ns here_).2⟩
  next =>
    obtain ⟨nodup, each⟩ := h.names ns names found
    exact ⟨nodup, fun x hx => ⟨(each x hx).1, kept (each x hx).2⟩⟩

variable (absolute : root.head? = some .root)

include absolute

theorem NamesStand.link (h : NamesStand root entries) (there : standsAt entries q.parts ≠ none)
    (steps : Nat) : NamesStand root (link steps q entries) := by
  induction steps generalizing q entries with
  | zero => exact h
  | succ steps ih =>
    cases named : q.fileName? with
    | none => rwa [link_unnamed named]
    | some n =>
      obtain ⟨base, ends⟩ := parts_of_fileName named
      have name : IsName n := Path.isName_of_mem_parts (p := q) (by rw [ends]; simp)
      have lies {ns : List String} (here_ : (holderOf q).parts = below root ns) :
          q.parts = below root (ns ++ [n]) := by
        rw [Path.holder_parts ends] at here_
        split at here_
        next =>
          -- The place for relative paths does not lie below an absolute root.
          cases root with
          | nil => cases absolute
          | cons part parts =>
            obtain ⟨rfl, -⟩ := List.cons.inj here_
            cases absolute
        next => rw [ends, here_, below_concat]
      by_cases present : standsAt entries (holderOf q).parts = none
      · rw [link_missing ends steps present]
        have made : standsAt (putAt (holderOf q) (.dir []) entries) (holderOf q).parts ≠ none := by
          rw [standsAt_putAt, if_pos rfl]
          simp
        refine (ih h.putDir made).addName fun ns here_ => ⟨name, ?_⟩
        rw [← lies here_]
        refine link_keeps ?_ steps
        rw [standsAt_putAt]
        split
        next => simp
        next => exact there
      · rw [link_present ends steps present]
        exact h.addName fun ns here_ => ⟨name, lies here_ ▸ there⟩

theorem NamesStand.addFile {d : MemoryDisk} (h : NamesStand root d.entries) (q : Path)
    (content : ByteArray) : NamesStand root (d.addFile q content).entries := by
  refine NamesStand.link absolute (h.putFile content _) ?_ _
  rw [standsAt_putAt, if_pos rfl]
  simp

theorem NamesStand.remove {d : MemoryDisk} (h : NamesStand root d.entries) (q : Path) :
    NamesStand root (d.remove q).entries := by
  refine namesStand_of fun ns names found => ?_
  have some_ : below root ns ≠ [] := by
    cases root with
    | nil => cases absolute
    | cons => simp [below]
  rw [standsAt_remove_struck] at found
  split at found
  next => cases found
  next =>
    obtain ⟨e, old, struck⟩ := Option.map_eq_some_iff.mp found
    cases e with
    | file => cases struck
    | dir olds =>
      rw [MemoryDisk.struck, Entry.dir.injEq] at struck
      subst struck
      obtain ⟨nodup, each⟩ := h.names ns olds old
      refine ⟨nodup.filter _, fun x hx => ?_⟩
      obtain ⟨listed, left_⟩ := List.mem_filter.mp hx
      refine ⟨(each x listed).1, fun gone => ?_⟩
      -- The deleted path is listed no more.
      rcases none_remove.mp gone with same | missing
      · rw [below_concat] at same
        have holder : (holderOf q).parts = below root ns := by
          rw [Path.holder_parts same, if_neg some_]
        simp [holder, Path.fileName_of_parts same] at left_
      · exact (each x listed).2 missing

end Names

section Later

variable {times : Nat → Nat} {c₁ c₂ : Nat}

/-- Goes on with a renumbering after some time, from another number on. -/
def later (times : Nat → Nat) (c₁ c₂ n : Nat) : Nat :=
  if n ≤ c₁ then times n else c₂ + (n - c₁)

theorem later_old {n : Nat} (old : n ≤ c₁) : later times c₁ c₂ n = times n :=
  if_pos old

theorem later_next : later times c₁ c₂ (c₁ + 1) = c₂ + 1 := by
  unfold later
  split
  next => omega
  next => omega

theorem later_strictMono (order : StrictMono times) (clocks : times c₁ ≤ c₂) :
    StrictMono (later times c₁ c₂) := by
  intro m n less
  unfold later
  split
  next old =>
    split
    next => exact order less
    next =>
      have before := order.monotone old
      omega
  next =>
    split
    next => omega
    next => omega

end Later

theorem spendFault_some {faults left : List (Path × Nat)} {p : Path}
    (spent : spendFault p faults = some left) : ∃ n, left = putAt p n faults := by
  unfold spendFault at spent
  split at spent
  next =>
    cases spent
    exact ⟨_, rfl⟩
  next => cases spent

/-- Faults are spent by the number that is left of them. -/
theorem spendFault_same {faults faults' : List (Path × Nat)} {p : Path}
    (same : standsAt faults' p.parts = standsAt faults p.parts) :
    (spendFault p faults = none ∧ spendFault p faults' = none) ∨
      ∃ n, spendFault p faults = some (putAt p n faults) ∧
        spendFault p faults' = some (putAt p n faults') := by
  unfold spendFault
  rw [lookup_eq, lookup_eq, same]
  cases standsAt faults p.parts with
  | none => exact .inl ⟨rfl, rfl⟩
  | some n =>
    cases n with
    | zero => exact .inl ⟨rfl, rfl⟩
    | succ n => exact .inr ⟨n, rfl, rfl⟩

/-- Two disks with the same project below a root, up to the file at a place. -/
structure Twins (times : Nat → Nat) (root place : List Part) (d₁ d₂ : MemoryDisk) : Prop where
  apart : OneApart times place d₁.entries d₂.entries
  names₁ : NamesStand root d₁.entries
  names₂ : NamesStand root d₂.entries
  order : StrictMono times
  past : d₁.InPast
  clocks : times d₁.clock ≤ d₂.clock
  reading : ∀ a, a ≠ place → standsAt d₂.metadataFaults a = standsAt d₁.metadataFaults a
  writing : ∀ a, a ≠ place → standsAt d₂.writeFaults a = standsAt d₁.writeFaults a

/-- Whether a place is not the one at which twins differ, and is not empty if it lies above. -/
def Firm (place : List Part) (d : MemoryDisk) (a : List Part) : Prop :=
  a ≠ place ∧ (LiesOver place a → standsAt d.entries a ≠ none)

namespace Twins

variable {times : Nat → Nat} {root place a : List Part} {d₁ d₂ : MemoryDisk} {p q : Path}
  (h : Twins times root place d₁ d₂)

include h

theorem content (other : a ≠ place) : contentAt d₂.entries a = contentAt d₁.entries a := by
  have agree := h.apart.agree a other
  unfold contentAt
  generalize standsAt d₁.entries a = s, standsAt d₂.entries a = t at agree
  cases agree <;> rfl

theorem timeAt (other : a ≠ place) : d₂.timeAt a = (d₁.timeAt a).map times := by
  have agree := h.apart.agree a other
  unfold MemoryDisk.timeAt
  generalize standsAt d₁.entries a = s, standsAt d₂.entries a = t at agree
  cases agree <;> rfl

theorem isFile (other : p.parts ≠ place) : Storage.isFile d₂ p = Storage.isFile d₁ p := by
  rw [isFile_eq, isFile_eq, h.content other]

theorem readText_firm (firm : Firm place d₁ p.parts) : d₂.readText p = d₁.readText p := by
  have agree := h.apart.agree p.parts firm.1
  have there := firm.2
  unfold readText
  rw [lookup_eq, lookup_eq]
  generalize standsAt d₁.entries p.parts = s, standsAt d₂.entries p.parts = t at agree there
  cases agree with
  | none => rfl
  | file => rfl
  | dir => rfl
  | ghost names above => exact absurd rfl (there above)

theorem readText (other : p.parts ≠ place) :
    (d₂.readText p).toOption = (d₁.readText p).toOption := by
  have agree := h.apart.agree p.parts other
  unfold MemoryDisk.readText
  rw [lookup_eq, lookup_eq]
  generalize standsAt d₁.entries p.parts = s, standsAt d₂.entries p.parts = t at agree
  cases agree <;> rfl

theorem isDir_firm (firm : Firm place d₁ p.parts) : Storage.isDir d₂ p = Storage.isDir d₁ p := by
  rw [Bool.eq_iff_iff, isDir_eq_true, isDir_eq_true]
  constructor
  · intro dir
    refine (h.apart.dirAt_or_none dir).resolve_right ?_
    rintro ⟨missing, onWay⟩
    exact firm.2 onWay missing
  · exact h.apart.dirAt

theorem fault_both (p : Path) (n : Nat) :
    Twins times root place (d₁.failMetadata p n) (d₂.failMetadata p n) := by
  refine { h with reading := fun a away => ?_ }
  rw [failMetadata, failMetadata, standsAt_putAt, standsAt_putAt, h.reading a away]

/-- A file has a time on both disks or on none. -/
theorem modified (other : p.parts ≠ place) :
    (d₂.modified p).1.toOption = (d₁.modified p).1.toOption.map times ∧
      Twins times root place (d₁.modified p).2 (d₂.modified p).2 := by
  unfold MemoryDisk.modified
  rcases spendFault_same (h.reading p.parts other) with ⟨none₁, none₂⟩ | ⟨n, some₁, some₂⟩
  · rw [none₁, none₂]
    have agree := h.apart.agree p.parts other
    dsimp only
    rw [lookup_eq, lookup_eq]
    generalize standsAt d₁.entries p.parts = s, standsAt d₂.entries p.parts = t at agree
    cases agree <;> exact ⟨rfl, h⟩
  · rw [some₁, some₂]
    exact ⟨rfl, h.fault_both p n⟩

omit h in
/-- Reading a time leaves the files, the clock and other faults alone. -/
theorem modified_rest (d : MemoryDisk) (p : Path) :
    (d.modified p).2.entries = d.entries ∧ (d.modified p).2.clock = d.clock ∧
      (d.modified p).2.writeFaults = d.writeFaults ∧
      ∀ a, a ≠ p.parts →
        standsAt (d.modified p).2.metadataFaults a = standsAt d.metadataFaults a := by
  unfold MemoryDisk.modified
  split
  next faults spent =>
    obtain ⟨n, rfl⟩ := spendFault_some spent
    exact ⟨rfl, rfl, rfl, fun a away => (standsAt_putAt _ _ _ _).trans (if_neg (Ne.symm away))⟩
  next => split <;> exact ⟨rfl, rfl, rfl, fun _ _ => rfl⟩

/-- What has a time is there, and it is no time to come. -/
theorem modified_past {time : Nat} (read : (d₁.modified p).1.toOption = some time) :
    time ≤ d₁.clock ∧ standsAt d₁.entries p.parts ≠ none := by
  unfold MemoryDisk.modified at read
  split at read
  next => cases read
  next =>
    rw [lookup_eq] at read
    cases stands : standsAt d₁.entries p.parts with
    | none =>
      rw [stands] at read
      cases read
    | some e =>
      rw [stands] at read
      cases e with
      | dir => cases read
      | file content old =>
        cases read
        refine ⟨h.past p.parts _ ?_, by simp⟩
        rw [MemoryDisk.timeAt, stands]
        rfl

/-- The time at the place may be read on one disk only. -/
theorem modified_left (here_ : p.parts = place) : Twins times root place (d₁.modified p).2 d₂ := by
  obtain ⟨entries, clock, faults, others⟩ := modified_rest d₁ p
  refine ⟨entries ▸ h.apart, entries ▸ h.names₁, h.names₂, h.order, fun parts t there => ?_,
    clock ▸ h.clocks, fun a away => ?_, faults ▸ h.writing⟩
  · rw [clock]
    rw [MemoryDisk.timeAt, entries] at there
    exact h.past parts t there
  · rw [others a (here_ ▸ away)]
    exact h.reading a away

theorem modified_right (here_ : p.parts = place) : Twins times root place d₁ (d₂.modified p).2 := by
  obtain ⟨entries, clock, faults, others⟩ := modified_rest d₂ p
  refine ⟨entries ▸ h.apart, h.names₁, entries ▸ h.names₂, h.order, h.past, clock ▸ h.clocks,
    fun a away => ?_, faults ▸ h.writing⟩
  rw [others a (here_ ▸ away)]
  exact h.reading a away

/-- Later times may be renumbered. -/
theorem renumber (c₂ : Nat) :
    OneApart (later times d₁.clock c₂) place d₁.entries d₂.entries := by
  refine h.apart.retime fun b content time stands => later_old (h.past b time ?_)
  rw [MemoryDisk.timeAt, stands]
  rfl

section Write

variable (absolute : place.head? = some .root) (rooted : root.head? = some .root)

include absolute rooted

theorem write_both (free : place <+: q.parts → q.parts = place) (bytes : ByteArray) :
    Twins (later times d₁.clock d₂.clock) root place (d₁.addFile q bytes) (d₂.addFile q bytes) := by
  have written := (h.renumber d₂.clock).write_both absolute free bytes (d₁.clock + 1)
  rw [later_next] at written
  exact ⟨written, h.names₁.addFile rooted q bytes, h.names₂.addFile rooted q bytes,
    later_strictMono h.order h.clocks, h.past.addFile q bytes, Nat.le_of_eq later_next,
    h.reading, h.writing⟩

theorem write_right (here_ : q.parts = place) (bytes : ByteArray) :
    Twins times root place d₁ (d₂.addFile q bytes) where
  apart := h.apart.write_right absolute here_ bytes _
  names₁ := h.names₁
  names₂ := h.names₂.addFile rooted q bytes
  order := h.order
  past := h.past
  clocks := Nat.le_succ_of_le h.clocks
  reading := h.reading
  writing := h.writing

end Write

theorem refuse_both (q : Path) (n : Nat) :
    Twins times root place (d₁.failWrite q n) (d₂.failWrite q n) := by
  refine { h with writing := fun a away => ?_ }
  rw [failWrite, failWrite, standsAt_putAt, standsAt_putAt, h.writing a away]

/-- A refusal at the place may come on the second disk only. -/
theorem refuse_right (here_ : q.parts = place) (n : Nat) :
    Twins times root place d₁ (d₂.failWrite q n) := by
  refine { h with writing := fun a away => ?_ }
  rw [failWrite, standsAt_putAt, if_neg (here_ ▸ Ne.symm away), h.writing a away]

end Twins

section Firm

variable {place a : List Part} {d : MemoryDisk} {q : Path}

theorem Firm.addFile (firm : Firm place d a) (q : Path) (bytes : ByteArray) :
    Firm place (d.addFile q bytes) a := by
  refine ⟨firm.1, fun onWay => link_keeps ?_ _⟩
  rw [standsAt_putAt]
  split
  next => simp
  next => exact firm.2 onWay

theorem Firm.remove (firm : Firm place d a) (stays : ¬ LiesOver place q.parts) :
    Firm place (d.remove q) a := by
  refine ⟨firm.1, fun onWay gone => ?_⟩
  rcases none_remove.mp gone with same | missing
  · exact stays (same ▸ onWay)
  · exact firm.2 onWay missing

theorem Firm.touch (firm : Firm place d a) (q : Path) : Firm place (d.touch q) a := by
  refine ⟨firm.1, fun onWay => ?_⟩
  unfold MemoryDisk.touch
  dsimp only
  split
  next =>
    rw [standsAt_putAt]
    split
    next => simp
    next => exact firm.2 onWay
  next => exact firm.2 onWay

end Firm

end MemoryDisk

end StoryBuild
