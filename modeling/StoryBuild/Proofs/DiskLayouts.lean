import StoryBuild.Proofs.MirroredChanges
import StoryBuild.Proofs.StorageLaws

namespace StoryBuild

/-- The parts of a path as seen from above. A relative path that starts with a name stands in the
place for relative paths. -/
def grounded : List Part → List Part
  | .name s :: rest => .here :: .name s :: rest
  | parts => parts

theorem grounded_mono {a b : List Part} (h : a <+: b) : grounded a <+: grounded b := by
  obtain ⟨more, rfl⟩ := h
  cases a with
  | nil => exact List.nil_prefix
  | cons part rest => cases part <;> exact ⟨more, rfl⟩

/-- Whether no path among some lies above another or is another spelling of it. -/
def Path.KeepApart (files : List Path) : Prop :=
  ∀ p ∈ files, ∀ q ∈ files, grounded p.parts <+: grounded q.parts → p.parts = q.parts

instance (files : List Path) : Decidable (Path.KeepApart files) :=
  decidable_of_iff (files.all fun p => files.all fun q =>
    decide (grounded p.parts <+: grounded q.parts → p.parts = q.parts)) (by
      simp only [List.all_eq_true, decide_eq_true_eq, Path.KeepApart])

namespace MemoryDisk

/-- The parts of the directory that lists a name which stands behind some parts. -/
def holderParts (base : List Part) : List Part :=
  if base = [] then [.here] else base

/-- A name has one place in a directory, whatever the spelling. -/
theorem grounded_of_holder {a b : List Part} (same : holderParts a = holderParts b) (x : String) :
    grounded (a ++ [.name x]) = grounded (b ++ [.name x]) := by
  unfold holderParts at same
  split at same
  next none_ =>
    split at same
    next none' => rw [none_, none']
    next =>
      rw [none_, ← same]
      rfl
  next =>
    split at same
    next none' =>
      rw [none', same]
      rfl
    next => rw [same]

theorem grounded_holder (base : List Part) (x : String) :
    grounded (holderParts base) <+: grounded (base ++ [.name x]) := by
  unfold holderParts
  split
  next none_ =>
    rw [none_]
    exact ⟨[.name x], rfl⟩
  next => exact grounded_mono (List.prefix_append _ _)

/-- No file stands where a directory for another file has to be. -/
theorem holder_ne {files : List Path} (apart : Path.KeepApart files) {p q : Path} (hp : p ∈ files)
    (hq : q ∈ files) {base : List Part} {x : String} (within : base ++ [.name x] <+: q.parts) :
    holderParts base ≠ p.parts := by
  intro same
  have above : grounded p.parts <+: grounded q.parts :=
    same ▸ (grounded_holder base x).trans (grounded_mono within)
  rw [← apart p hp q hq above, ← same, holderParts] at within
  split at within
  next none_ =>
    rw [none_] at within
    simp at within
  next => exact absurd within.length_le (by simp)

/-- No two files have one name in one directory. -/
theorem parts_of_holder {files : List Path} (apart : Path.KeepApart files) {p q : Path}
    (hp : p ∈ files) (hq : q ∈ files) {base base' : List Part} {x : String}
    (ends : p.parts = base ++ [.name x]) (within : base' ++ [.name x] <+: q.parts)
    (same : holderParts base = holderParts base') : p.parts = base' ++ [.name x] := by
  have above : grounded p.parts <+: grounded q.parts := by
    rw [ends, grounded_of_holder same]
    exact grounded_mono within
  rw [← apart p hp q hq above, ends] at within
  rcases List.prefix_concat_iff.mp within with whole | inside
  · exact ends.trans whole.symm
  · -- A directory does not hold itself.
    have some_ : base ≠ [] := by
      rintro rfl
      simp at inside
    rw [holderParts, if_neg some_, holderParts] at same
    split at same
    next none_ =>
      rw [same, none_] at inside
      simp at inside
    next =>
      rw [same] at inside
      exact absurd inside.length_le (by simp)

/-- Whether every directory lists names, each once. -/
def Named (entries : List (Path × Entry)) : Prop :=
  ∀ a names, standsAt entries a = some (.dir names) → names.Nodup ∧ ∀ x ∈ names, IsName x

namespace Named

variable {entries : List (Path × Entry)} {d : MemoryDisk}

theorem listNames (h : Named entries) (root : List Part) : ListNames root entries :=
  fun ns => h (below root ns)

theorem put (h : Named entries) (p : Path) {e : Entry}
    (own : ∀ names, e = .dir names → names.Nodup ∧ ∀ x ∈ names, IsName x) :
    Named (putAt p e entries) := by
  intro a names found
  rw [standsAt_putAt] at found
  split at found
  next => exact own names (Option.some.inj found)
  next => exact h a names found

theorem addName (h : Named entries) (dir : Path) {n : String} (valid : IsName n) :
    Named (addName dir n entries) := by
  unfold MemoryDisk.addName
  rw [lookup_eq]
  split
  next names found =>
    obtain ⟨nodup, each⟩ := h dir.parts names found
    split
    next => exact h
    next new =>
      refine h.put dir fun longer same => ?_
      rw [← Entry.dir.inj same]
      refine ⟨List.nodup_append.mpr ⟨nodup, by simp, ?_⟩, ?_⟩
      · rintro x hx y hy rfl
        exact new (List.mem_singleton.mp hy ▸ hx)
      · intro x hx
        rcases List.mem_append.mp hx with hx | hx
        · exact each x hx
        · exact List.mem_singleton.mp hx ▸ valid
  next => exact h

theorem putDir (h : Named entries) (p : Path) : Named (putAt p (.dir []) entries) :=
  h.put p fun names same => by simp [← Entry.dir.inj same]

theorem putFile (h : Named entries) (p : Path) (content : ByteArray) (time : Nat) :
    Named (putAt p (.file content time) entries) :=
  h.put p nofun

theorem link (h : Named entries) (steps : Nat) (p : Path) : Named (link steps p entries) := by
  induction steps generalizing p entries with
  | zero => exact h
  | succ steps ih =>
    unfold MemoryDisk.link
    split
    next => exact h
    next name named =>
      obtain ⟨base, ends⟩ := parts_of_fileName named
      have valid : IsName name := Path.isName_of_mem_parts (p := p) (by simp [ends])
      dsimp only
      split
      next => exact h
      next =>
        split
        next => exact h.addName _ valid
        next => exact (ih (h.putDir _) _).addName _ valid

theorem addFile (h : Named d.entries) (p : Path) (content : ByteArray) :
    Named (d.addFile p content).entries :=
  (h.putFile p content _).link _ p

theorem touch (h : Named d.entries) (p : Path) : Named (d.touch p).entries := by
  unfold MemoryDisk.touch
  dsimp only
  split
  next => exact h.putFile p _ _
  next => exact h

theorem remove (h : Named d.entries) (p : Path) : Named (d.remove p).entries := by
  have gone : Named (removeAt p d.entries) := by
    intro a names found
    rw [standsAt_removeAt] at found
    split at found
    next => cases found
    next => exact h a names found
  unfold MemoryDisk.remove
  dsimp only
  split
  next names name listed _ =>
    rw [lookup_eq] at listed
    obtain ⟨nodup, each⟩ := gone _ names listed
    refine gone.put _ fun fewer same => ?_
    rw [← Entry.dir.inj same]
    exact ⟨nodup.sublist List.filter_sublist, fun x hx => each x (List.mem_filter.mp hx).1⟩
  next => exact gone

end Named

theorem empty_named : Named empty.entries := by
  intro a names found
  rw [standsAt_empty] at found
  split at found
  next =>
    rw [Option.some.injEq, Entry.dir.injEq] at found
    simp [← found]
  next => cases found

/-- Directories list names, and what has a name is listed in the directory that holds it. Some
places may still have to be listed. -/
structure Shelved (entries : List (Path × Entry)) (late : List Part → Prop) : Prop where
  names : Named entries
  listed : ∀ base x, ¬ late (base ++ [.name x]) → standsAt entries (base ++ [.name x]) ≠ none →
    Lists entries (holderParts base) x

namespace Shelved

variable {entries : List (Path × Entry)} {late : List Part → Prop} {p : Path} {base : List Part}
  {n : String}

theorem of_unnamed (h : Shelved entries fun a => a = p.parts ∨ late a)
    (unnamed : p.fileName? = none) : Shelved entries late :=
  ⟨h.names, fun a x free =>
    h.listed a x (not_or.mpr ⟨EqualBut.unnamed_snoc unnamed a x, free⟩)⟩

/-- A name that is added to its directory is listed from then on. -/
theorem addName (h : Shelved entries fun a => a = base ++ [.name n] ∨ late a) {dir : Path}
    (holder : dir.parts = holderParts base) (valid : IsName n) (there : DirAt entries dir.parts) :
    Shelved (addName dir n entries) late := by
  refine ⟨h.names.addName dir valid, fun a x free stands => ?_⟩
  rw [lists_addName]
  rw [ne_eq, none_addName] at stands
  by_cases mine : a ++ [.name x] = base ++ [.name n]
  · obtain ⟨rfl, last⟩ := List.append_inj' mine rfl
    rw [List.singleton_inj, Part.name.injEq] at last
    exact .inr ⟨holder, last, holder ▸ there⟩
  · exact .inl (h.listed a x (not_or.mpr ⟨mine, free⟩) stands)

/-- A directory that is made has to be listed yet. -/
theorem putDir (h : Shelved entries late) (missing : standsAt entries p.parts = none) :
    Shelved (putAt p (.dir []) entries) fun a => a = p.parts ∨ late a := by
  refine ⟨h.names.putDir p, fun a x free there => ?_⟩
  rw [not_or] at free
  rw [standsAt_putAt, if_neg (Ne.symm free.1)] at there
  exact (lists_putDir missing).mpr (h.listed a x free.2 there)

/-- A file that is put where nothing is listed has to be listed yet. -/
theorem putFile (h : Shelved entries late) (content : ByteArray) (time : Nat)
    (clear : ∀ base x, standsAt entries (base ++ [.name x]) ≠ none → holderParts base ≠ p.parts) :
    Shelved (putAt p (.file content time) entries) fun a => a = p.parts ∨ late a := by
  refine ⟨h.names.putFile p content time, fun a x free there => ?_⟩
  rw [not_or] at free
  rw [standsAt_putAt, if_neg (Ne.symm free.1)] at there
  exact (lists_putFile p content time).mpr
    ⟨Ne.symm (clear a x there), h.listed a x free.2 there⟩

/-- Listing a path lists it, and every directory above it that has to be made. -/
theorem link {steps : Nat} (h : Shelved entries fun a => a = p.parts ∨ late a)
    (enough : p.fileName? = none ∨ p.parts.length < steps)
    (no_file : ∀ base x, base ++ [.name x] <+: p.parts →
      contentAt entries (holderParts base) = none) :
    Shelved (link steps p entries) late := by
  induction steps generalizing p entries late with
  | zero => exact h.of_unnamed (enough.resolve_right (by simp))
  | succ steps ih =>
    cases named : p.fileName? with
    | none =>
      rw [link_unnamed named]
      exact h.of_unnamed named
    | some n =>
      obtain ⟨base, ends⟩ := parts_of_fileName named
      have holder : (holderOf p).parts = holderParts base := Path.holder_parts ends
      have valid : IsName n := Path.isName_of_mem_parts (p := p) (by simp [ends])
      have no_content := no_file base n (ends ▸ List.prefix_refl _)
      rw [ends] at h
      cases found : standsAt entries (holderOf p).parts with
      | some e =>
        have present : standsAt entries (holderOf p).parts ≠ none := by simp [found]
        rw [link_present ends steps present]
        refine h.addName holder valid ?_
        cases e with
        | file => simp [contentAt, ← holder, found, Entry.content?] at no_content
        | dir names => exact ⟨names, found⟩
      | none =>
        -- The directory that is made is listed by the next step up; until then it is late.
        rw [link_missing ends steps found]
        refine addName (ih (h.putDir found) (EqualBut.holder_short ends enough) ?_) holder valid
          (link_dir ⟨[], by rw [standsAt_putAt, if_pos rfl]⟩)
        intro above x within
        rw [holder, holderParts] at within
        split at within
        next => cases above <;> simp at within
        next =>
          rw [contentAt_putDir [] (by rw [holder]; exact no_content)]
          exact no_file above x (within.trans (ends ▸ List.prefix_append _ _))

end Shelved

/-- A disk in order that holds no other files than some, and no other directories than those above
these files and the place for relative paths. -/
structure LaidOut (files : List Path) (d : MemoryDisk) : Prop where
  file : ∀ a, contentAt d.entries a ≠ none → ∃ q ∈ files, q.parts = a
  dir : ∀ a, DirAt d.entries a → a = [.here] ∨ ∃ q ∈ files, LiesOver q.parts a
  shelved : Shelved d.entries fun _ => False

theorem empty_laidOut (files : List Path) : empty.LaidOut files := by
  refine ⟨?_, ?_, empty_named, ?_⟩
  · intro a there
    rw [contentAt, standsAt_empty] at there
    split at there <;> exact absurd rfl there
  · rintro a ⟨names, found⟩
    rw [standsAt_empty] at found
    split at found
    next here_ => exact .inl here_
    next => cases found
  · intro base x _ there
    rw [standsAt_empty, if_neg] at there
    · exact absurd rfl there
    · intro dot
      have last := congrArg List.getLast? dot
      simp at last

namespace LaidOut

variable {files : List Path} {d : MemoryDisk} {p : Path} {base : List Part} {x : String}
  (h : d.LaidOut files)

include h

theorem congr {d' : MemoryDisk} (same : d'.entries = d.entries) : d'.LaidOut files := by
  obtain ⟨file, dir, shelved⟩ := h
  rw [← same] at file dir shelved
  exact ⟨file, dir, shelved⟩

/-- What has a name is a file or leads to one. -/
theorem within (there : standsAt d.entries (base ++ [.name x]) ≠ none) :
    ∃ q ∈ files, base ++ [.name x] <+: q.parts := by
  cases found : standsAt d.entries (base ++ [.name x]) with
  | none => exact absurd found there
  | some e =>
    cases e with
    | file content time =>
      obtain ⟨q, hq, parts⟩ := h.file (base ++ [.name x]) (by
        rw [contentAt, found]
        exact Option.some_ne_none content)
      exact ⟨q, hq, parts ▸ List.prefix_refl _⟩
    | dir names =>
      rcases h.dir _ ⟨names, found⟩ with dot | ⟨q, hq, leads⟩
      · have last := congrArg List.getLast? dot
        simp at last
      · exact ⟨q, hq, leads.2.1⟩

variable (apart : Path.KeepApart files) (mem : p ∈ files)

include apart mem

/-- Nothing stands in what is a file. -/
theorem clear (there : standsAt d.entries (base ++ [.name x]) ≠ none) :
    holderParts base ≠ p.parts := by
  obtain ⟨q, hq, inside⟩ := h.within there
  exact holder_ne apart mem hq inside

theorem addFile (content : ByteArray) : (d.addFile p content).LaidOut files := by
  refine ⟨?_, ?_, ?_⟩
  · intro a there
    rw [contentAt_addFile] at there
    split at there
    next same => exact ⟨p, mem, same⟩
    next => exact h.file a there
  · rintro a ⟨names, found⟩
    by_cases here_ : a = [.here]
    · exact .inl here_
    · by_cases leads : LiesOver p.parts a
      · exact .inr ⟨p, mem, leads⟩
      · have not_above : a ≠ [] → a <+: p.parts → a = p.parts :=
          fun some_ inside => Classical.byContradiction fun other => leads ⟨some_, inside, other⟩
        simp only [MemoryDisk.addFile] at found
        rw [standsAt_link _ _ here_ not_above, standsAt_putAt] at found
        split at found
        next => cases found
        next => exact h.dir a ⟨names, found⟩
  · refine (h.shelved.putFile content (d.clock + 1) fun base x there =>
      h.clear apart mem there).link (.inr (Nat.lt_succ_self _)) ?_
    intro base x inside
    rw [contentAt_putAt, if_neg (Ne.symm (holder_ne apart mem mem inside))]
    refine Classical.byContradiction fun there => ?_
    obtain ⟨q, hq, parts⟩ := h.file _ there
    exact holder_ne apart hq mem inside parts.symm

theorem remove : (d.remove p).LaidOut files := by
  refine ⟨?_, ?_, h.shelved.names.remove p, ?_⟩
  · intro a there
    refine h.file a ?_
    rw [contentAt, view_remove fun _ => rfl] at there
    split at there
    next => exact absurd rfl there
    next => exact there
  · exact fun a dir => h.dir a (dirAt_remove.mp dir).2
  · intro base x _ there
    rw [ne_eq, none_remove, not_or] at there
    obtain ⟨other, there⟩ := there
    refine lists_remove.mpr ⟨⟨Ne.symm (h.clear apart mem there), ?_⟩,
      h.shelved.listed base x not_false there⟩
    rintro ⟨named, holder⟩
    obtain ⟨base', ends⟩ := parts_of_fileName named
    rw [Path.holder_parts ends] at holder
    obtain ⟨q, hq, inside⟩ := h.within there
    exact other (parts_of_holder apart mem hq ends inside holder)

end LaidOut

namespace LaidOut

variable {files : List Path} {d : MemoryDisk}

theorem touch (h : d.LaidOut files) (p : Path) : (d.touch p).LaidOut files := by
  unfold MemoryDisk.touch
  dsimp only
  rw [lookup_eq]
  split
  next content time found =>
    refine ⟨?_, ?_, h.shelved.names.putFile p _ _, ?_⟩
    · intro a there
      rw [contentAt_putAt] at there
      split at there
      next same =>
        refine h.file a ?_
        rw [← same, contentAt, found]
        exact Option.some_ne_none content
      next => exact h.file a there
    · rintro a ⟨names, dir⟩
      rw [standsAt_putAt] at dir
      split at dir
      next => cases dir
      next => exact h.dir a ⟨names, dir⟩
    · intro base x _ there
      have old : standsAt d.entries (base ++ [.name x]) ≠ none := by
        rw [standsAt_putAt] at there
        split at there
        next same => simp [← same, found]
        next => exact there
      have listed := h.shelved.listed base x not_false old
      refine (lists_putFile p content _).mpr ⟨fun same => ?_, listed⟩
      obtain ⟨names, dir, -⟩ := listed
      rw [← same, found] at dir
      cases dir
  next => exact h.congr rfl

theorem some_parts (h : d.LaidOut files) {a : List Part} (dir : DirAt d.entries a) : a ≠ [] := by
  rcases h.dir a dir with dot | ⟨q, -, leads⟩
  · simp [dot]
  · exact leads.1

/-- What stands below a root is listed. -/
theorem lists_below (h : d.LaidOut files) {root : List Part} (some_root : root ≠ [])
    (ns : List String) (x : String) (there : standsAt d.entries (below root (ns ++ [x])) ≠ none) :
    Lists d.entries (below root ns) x := by
  have some_ : below root ns ≠ [] := List.append_ne_nil_of_left_ne_nil some_root _
  rw [below_concat] at there
  have listed := h.shelved.listed (below root ns) x not_false there
  rwa [holderParts, if_neg some_] at listed

end LaidOut

/-- What can be done with a disk. A write may be refused, and a look at a modification time spends
a failure that was asked for. -/
inductive Change where
  | add (p : Path) (content : ByteArray)
  | write (p : Path) (content : ByteArray)
  | touch (p : Path)
  | remove (p : Path)
  | look (p : Path)
  | failMetadata (p : Path) (times : Nat)
  | failWrite (p : Path) (times : Nat)

/-- The file that is made or taken away. -/
def Change.file? : Change → Option Path
  | .add p _ => some p
  | .write p _ => some p
  | .remove p => some p
  | _ => none

/-- A disk after a change. -/
def change (d : MemoryDisk) : Change → MemoryDisk
  | .add p content => d.addFile p content
  | .write p content => (d.write p content).2
  | .touch p => d.touch p
  | .remove p => d.remove p
  | .look p => (d.modified p).2
  | .failMetadata p times => d.failMetadata p times
  | .failWrite p times => d.failWrite p times

/-- A new disk after some changes. -/
def made (changes : List Change) : MemoryDisk :=
  changes.foldl change empty

/-- The files that are made or taken away by some changes. -/
def filesOf (changes : List Change) : List Path :=
  changes.filterMap Change.file?

variable {files : List Path} {d : MemoryDisk}

theorem LaidOut.change (h : d.LaidOut files) (apart : Path.KeepApart files) {c : Change}
    (among : ∀ p, c.file? = some p → p ∈ files) : (d.change c).LaidOut files := by
  cases c with
  | add p content => exact h.addFile apart (among p rfl) content
  | write p content =>
    unfold MemoryDisk.change MemoryDisk.write
    dsimp only
    split
    next => exact h.congr rfl
    next => exact h.addFile apart (among p rfl) content
  | touch p => exact h.touch p
  | remove p => exact h.remove apart (among p rfl)
  | look p => exact h.congr (modified_entries d p)
  | failMetadata p times => exact h.congr rfl
  | failWrite p times => exact h.congr rfl

theorem Named.change (h : Named d.entries) (c : Change) : Named (d.change c).entries := by
  cases c with
  | add p content => exact h.addFile p content
  | write p content =>
    unfold MemoryDisk.change MemoryDisk.write
    dsimp only
    split
    next => exact h
    next => exact h.addFile p content
  | touch p => exact h.touch p
  | remove p => exact h.remove p
  | look p =>
    have same : (d.modified p).2.entries = d.entries := modified_entries d p
    exact same ▸ h
  | failMetadata p times => exact h
  | failWrite p times => exact h

/-- Whatever is done with a disk, its directories list names. -/
theorem made_named (changes : List Change) : Named (made changes).entries := by
  have run (d : MemoryDisk) (h : Named d.entries) :
      Named (changes.foldl MemoryDisk.change d).entries := by
    induction changes generalizing d with
    | nil => exact h
    | cons c rest ih => exact ih _ (h.change c)
  exact run empty empty_named

/-- Whatever is done with files that keep apart, the disk is in order and holds these files only. -/
theorem made_laidOut {changes : List Change} (apart : Path.KeepApart (filesOf changes)) :
    (made changes).LaidOut (filesOf changes) := by
  have run (rest : List Change) (d : MemoryDisk) (h : d.LaidOut (filesOf changes))
      (among : ∀ c ∈ rest, ∀ p, c.file? = some p → p ∈ filesOf changes) :
      (rest.foldl MemoryDisk.change d).LaidOut (filesOf changes) := by
    induction rest generalizing d with
    | nil => exact h
    | cons c rest ih =>
      exact ih _ (h.change apart (among c (by simp))) fun c hc => among c (by simp [hc])
  exact run changes empty (empty_laidOut _) fun c hc p file =>
    List.mem_filterMap.mpr ⟨c, hc, file⟩

end MemoryDisk

end StoryBuild
