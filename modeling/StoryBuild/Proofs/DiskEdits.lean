import StoryBuild.Proofs.DiskListing

namespace StoryBuild.MemoryDisk

/-- The order of all directories below a root, whatever stands there. -/
abbrev InOrder (root : List Part) (entries : List (Path × Entry)) : Prop :=
  Tree root entries fun _ => False

/-- A deletion changes nothing but what stands where. -/
theorem remove_eq (d : MemoryDisk) (p : Path) :
    d.remove p = { d with entries := (d.remove p).entries } := by
  unfold remove
  dsimp only
  split <;> rfl

section View

variable {α : Type} {view : Entry → Option α} (dirs : ∀ names, view (.dir names) = none)

include dirs

theorem view_addFile (d : MemoryDisk) (p : Path) (content : ByteArray) (parts : List Part) :
    (standsAt (d.addFile p content).entries parts).bind view =
      if p.parts = parts then view (.file content (d.clock + 1))
      else (standsAt d.entries parts).bind view := by
  simp only [addFile]
  rw [view_link dirs, standsAt_putAt]
  split <;> rfl

theorem view_remove (d : MemoryDisk) (p : Path) (parts : List Part) :
    (standsAt (d.remove p).entries parts).bind view =
      if p.parts = parts then none else (standsAt d.entries parts).bind view := by
  have gone (parts : List Part) : (standsAt (removeAt p d.entries) parts).bind view =
      if p.parts = parts then none else (standsAt d.entries parts).bind view := by
    rw [standsAt_removeAt]
    split <;> rfl
  rw [← gone]
  unfold remove
  dsimp only
  split
  next names _ listed _ =>
    have no_file : (standsAt (removeAt p d.entries) (holderOf p).parts).bind view = none := by
      rw [← lookup_eq, listed]
      exact dirs names
    exact view_putDir dirs _ no_file parts
  next => rfl

/-- An edit changes what is seen of its own file only. -/
theorem view_edit {root : Path} {d : MemoryDisk} {e : Edit} {parts : List Part}
    (apart : (root.join e.path).parts ≠ parts) :
    (standsAt (d.edit root e).entries parts).bind view =
      (standsAt d.entries parts).bind view := by
  cases e with
  | write p content => exact (view_addFile dirs d _ content parts).trans (if_neg apart)
  | delete p => exact (view_remove dirs d _ parts).trans (if_neg apart)

end View

/-- A directory with one name less; a file stays as it is. -/
def withoutName (name : String) : Entry → Entry
  | .dir names => .dir (names.filter (· ≠ name))
  | .file content modified => .file content modified

/-- What a deletion leaves: the path is gone, and its directory lists its name no more. -/
theorem standsAt_remove_named (d : MemoryDisk) {p : Path} {name : String}
    (named : p.fileName? = some name) (parts : List Part) :
    standsAt (d.remove p).entries parts =
      if p.parts = parts then none
      else if (holderOf p).parts = parts then (standsAt d.entries parts).map (withoutName name)
      else standsAt d.entries parts := by
  unfold remove
  dsimp only
  rw [named, lookup_eq, standsAt_removeAt]
  split
  next names name' found same =>
    rw [Option.some.injEq] at same
    subst same
    have other : p.parts ≠ (holderOf p).parts := by
      intro here_
      rw [if_pos here_] at found
      cases found
    rw [if_neg other] at found
    dsimp only
    rw [standsAt_putAt, standsAt_removeAt]
    by_cases here_ : (holderOf p).parts = parts
    · subst here_
      rw [if_pos rfl, if_neg other, if_pos rfl, found]
      rfl
    · rw [if_neg here_, if_neg here_]
  next not_dir =>
    dsimp only
    rw [standsAt_removeAt]
    split
    next => rfl
    next away =>
      split
      next here_ =>
        subst here_
        rw [if_neg away] at not_dir
        cases found : standsAt d.entries (holderOf p).parts with
        | none => rfl
        | some e =>
          cases e with
          | file => rfl
          | dir names => exact absurd rfl (not_dir names name found)
      next => rfl

/-- A path that ends in no name is listed nowhere. -/
theorem standsAt_remove_unnamed (d : MemoryDisk) {p : Path} (unnamed : p.fileName? = none)
    (parts : List Part) :
    standsAt (d.remove p).entries parts =
      if p.parts = parts then none else standsAt d.entries parts := by
  unfold remove
  dsimp only
  rw [unnamed]
  split
  next some_ => cases some_
  next => exact standsAt_removeAt p d.entries parts

theorem standsAt_remove (d : MemoryDisk) {p : Path} {base : List Part} {name : String}
    (ends : p.parts = base ++ [.name name]) (some_base : base ≠ []) (parts : List Part) :
    standsAt (d.remove p).entries parts =
      if p.parts = parts then none
      else if base = parts then (standsAt d.entries parts).map (withoutName name)
      else standsAt d.entries parts := by
  have holder : (holderOf p).parts = base := by
    rw [Path.holder_parts ends, if_neg some_base]
  rw [standsAt_remove_named d (Path.fileName_of_parts ends), holder]

section Order

variable {root : Path} {d : MemoryDisk} {names : List String}

/-- A file is written below no file, and at most in place of an empty directory. -/
theorem addFile_inOrder (h : InOrder root.parts d.entries) (some_root : root.parts ≠ [])
    (some_ : names ≠ []) (valid : ∀ s ∈ names, IsName s) (content : ByteArray)
    (blank : ∀ ys, standsAt d.entries (below root.parts names) = some (.dir ys) → ys = [])
    (no_file : ∀ ms, ms <+: names → ms ≠ names → contentAt d.entries (below root.parts ms) = none) :
    InOrder root.parts (d.addFile (root.join (.ofNames names)) content).entries := by
  have here_ : (root.join (.ofNames names)).parts = below root.parts names :=
    Path.join_parts root valid
  obtain ⟨ns, x, rfl⟩ : ∃ ns x, names = ns ++ [x] :=
    ⟨_, _, (List.dropLast_concat_getLast some_).symm⟩
  have stands : ∀ ms, standsAt (putAt (root.join (.ofNames (ns ++ [x])))
      (.file content (d.clock + 1)) d.entries) (below root.parts ms) =
        if ns ++ [x] = ms then some (.file content (d.clock + 1))
        else standsAt d.entries (below root.parts ms) := by
    intro ms
    rw [standsAt_putAt, here_]
    simp only [below_inj]
  have written : Tree root.parts (putAt (root.join (.ofNames (ns ++ [x])))
      (.file content (d.clock + 1)) d.entries) fun l => l = ns ++ [x] ∨ False := by
    constructor
    · intro ms ys dir
      rw [stands] at dir
      split at dir
      next => simp at dir
      next =>
        obtain ⟨nodup, each⟩ := h.names ms ys dir
        refine ⟨nodup, fun y hy => ⟨(each y hy).1, ?_⟩⟩
        rw [stands]
        split
        next => simp
        next => exact (each y hy).2
    · intro ms y free some_
      rw [or_false] at free
      rw [stands, if_neg (Ne.symm free)] at some_
      obtain ⟨ys, dir, mem⟩ := h.listed ms y not_false some_
      refine ⟨ys, ?_, mem⟩
      rw [stands, if_neg]
      · exact dir
      · rintro rfl
        rw [blank ys dir] at mem
        cases mem
  refine link_tree written some_root here_ (Nat.le_succ _) valid ?_ ?_
  · rw [stands, if_pos rfl]
    simp
  · intro ms within
    have other : ns ++ [x] ≠ ms := by
      rintro rfl
      exact absurd within.length_le (by simp)
    rw [contentAt_putAt, here_, if_neg (by simpa using other)]
    exact no_file ms (within.trans (List.prefix_append _ _)) (Ne.symm other)

section Remove

variable {ns : List String} {x : String} (some_root : root.parts ≠ [])
  (valid : ∀ s ∈ ns ++ [x], IsName s)

include some_root valid

theorem standsAt_remove_below (ms : List String) :
    standsAt (d.remove (root.join (.ofNames (ns ++ [x])))).entries (below root.parts ms) =
      if ns ++ [x] = ms then none
      else if ns = ms then (standsAt d.entries (below root.parts ms)).map (withoutName x)
      else standsAt d.entries (below root.parts ms) := by
  have here_ : (root.join (.ofNames (ns ++ [x]))).parts = below root.parts ns ++ [.name x] :=
    (Path.join_parts root valid).trans (below_concat root.parts ns x)
  have some_base : below root.parts ns ≠ [] := fun none_ =>
    some_root (List.append_eq_nil_iff.mp none_).1
  rw [standsAt_remove d here_ some_base, here_, ← below_concat]
  simp only [below_inj]

/-- Only the deleted place is empty afterwards. -/
theorem standsAt_remove_none {ms : List String} (other : ns ++ [x] ≠ ms) :
    standsAt (d.remove (root.join (.ofNames (ns ++ [x])))).entries (below root.parts ms) = none ↔
      standsAt d.entries (below root.parts ms) = none := by
  rw [standsAt_remove_below some_root valid, if_neg other]
  split <;> simp

theorem remove_names (h : InOrder root.parts d.entries) {ms ys : List String}
    (dir : standsAt (d.remove (root.join (.ofNames (ns ++ [x])))).entries (below root.parts ms) =
      some (.dir ys)) :
    ys.Nodup ∧ ∀ y ∈ ys, IsName y ∧
      standsAt (d.remove (root.join (.ofNames (ns ++ [x])))).entries
        (below root.parts (ms ++ [y])) ≠ none := by
  rw [standsAt_remove_below some_root valid] at dir
  split at dir
  next => cases dir
  next =>
    split at dir
    next same =>
      subst same
      obtain ⟨e, found, less⟩ := Option.map_eq_some_iff.mp dir
      cases e with
      | file => cases less
      | dir zs =>
        rw [withoutName, Entry.dir.injEq] at less
        subst less
        obtain ⟨nodup, each⟩ := h.names ns zs found
        refine ⟨nodup.sublist List.filter_sublist, ?_⟩
        intro y hy
        obtain ⟨mem, differs⟩ := List.mem_filter.mp hy
        have other : ns ++ [x] ≠ ns ++ [y] := by
          intro same
          have last := (List.append_inj' same rfl).2
          simp_all
        exact ⟨(each y mem).1,
          mt (standsAt_remove_none some_root valid other).mp (each y mem).2⟩
    next differs =>
      obtain ⟨nodup, each⟩ := h.names ms ys dir
      have other (y : String) : ns ++ [x] ≠ ms ++ [y] :=
        fun same => differs (List.append_inj' same rfl).1
      exact ⟨nodup, fun y hy => ⟨(each y hy).1,
        mt (standsAt_remove_none some_root valid (other y)).mp (each y hy).2⟩⟩

theorem remove_listed (h : InOrder root.parts d.entries)
    (blank : ∀ ys, standsAt d.entries (below root.parts (ns ++ [x])) = some (.dir ys) → ys = [])
    {ms : List String} {y : String}
    (some_ : standsAt (d.remove (root.join (.ofNames (ns ++ [x])))).entries
      (below root.parts (ms ++ [y])) ≠ none) :
    ∃ ys, standsAt (d.remove (root.join (.ofNames (ns ++ [x])))).entries (below root.parts ms) =
      some (.dir ys) ∧ y ∈ ys := by
  have other : ns ++ [x] ≠ ms ++ [y] := by
    intro gone
    rw [standsAt_remove_below some_root valid, if_pos gone] at some_
    exact some_ rfl
  rw [ne_eq, standsAt_remove_none some_root valid other] at some_
  obtain ⟨ys, dir, mem⟩ := h.listed ms y not_false some_
  have not_this : ns ++ [x] ≠ ms := by
    rintro rfl
    rw [blank ys dir] at mem
    cases mem
  rw [standsAt_remove_below some_root valid, if_neg not_this]
  split
  next same =>
    subst same
    have differs : y ≠ x := by
      rintro rfl
      exact other rfl
    refine ⟨ys.filter (· ≠ x), by rw [dir]; rfl, ?_⟩
    exact List.mem_filter.mpr ⟨mem, by simpa using differs⟩
  next => exact ⟨ys, dir, mem⟩

end Remove

/-- What is deleted lists nothing. -/
theorem remove_inOrder (h : InOrder root.parts d.entries) (some_root : root.parts ≠ [])
    (some_ : names ≠ []) (valid : ∀ s ∈ names, IsName s)
    (blank : ∀ ys, standsAt d.entries (below root.parts names) = some (.dir ys) → ys = []) :
    InOrder root.parts (d.remove (root.join (.ofNames names))).entries := by
  obtain ⟨ns, x, rfl⟩ : ∃ ns x, names = ns ++ [x] :=
    ⟨_, _, (List.dropLast_concat_getLast some_).symm⟩
  exact ⟨fun _ _ dir => remove_names some_root valid h dir,
    fun _ _ _ there => remove_listed some_root valid h blank there⟩

end Order

theorem contents_eq (d : MemoryDisk) (p : Path) : d.contents? p = contentAt d.entries p.parts := by
  rw [contents?, contentAt, lookup_eq]
  cases standsAt d.entries p.parts with
  | none => rfl
  | some e => cases e <;> rfl

theorem contentAt_addFile (d : MemoryDisk) (p : Path) (content : ByteArray) (parts : List Part) :
    contentAt (d.addFile p content).entries parts =
      if p.parts = parts then some content else contentAt d.entries parts :=
  view_addFile (fun _ => rfl) d p content parts

theorem isFile_eq (d : MemoryDisk) (p : Path) :
    Storage.isFile d p = (contentAt d.entries p.parts).isSome := by
  rw [← contents_eq]
  rfl

theorem isDir_eq_false {d : MemoryDisk} {p : Path} :
    Storage.isDir d p = false ↔ ∀ names, standsAt d.entries p.parts ≠ some (.dir names) := by
  simp only [Storage.isDir, lookup_eq]
  cases standsAt d.entries p.parts with
  | none => simp
  | some e => cases e <;> simp

theorem isDir_eq_true {d : MemoryDisk} {p : Path} :
    Storage.isDir d p = true ↔ ∃ names, standsAt d.entries p.parts = some (.dir names) := by
  rw [← Bool.not_eq_false, isDir_eq_false]
  simp

theorem readDir_eq {d : MemoryDisk} {dir : Path} {names : List String}
    (found : standsAt d.entries dir.parts = some (.dir names)) :
    Storage.readDir d dir = .ok ((names.map fun name => dir.join (.ofText name)).mergeSort
      fun a b => !b.before a) := by
  change d.readDir dir = _
  rw [readDir, lookup_eq, found]

theorem readDir_error {d : MemoryDisk} {dir : Path} (no_dir : Storage.isDir d dir = false) :
    Storage.readDir d dir = .error (.notListable dir) := by
  rw [isDir_eq_false] at no_dir
  change d.readDir dir = _
  rw [readDir, lookup_eq]
  cases stands : standsAt d.entries dir.parts with
  | none => rfl
  | some e =>
    cases e with
    | file => rfl
    | dir names => exact absurd stands (no_dir names)

variable {root : Path} {d : MemoryDisk} {e : Edit}

theorem edit_inOrder (h : InOrder root.parts d.entries) (some_root : root.parts ≠ [])
    (normal : e.path.IsNormalized) (admitted : d.Admits root e) :
    InOrder root.parts (d.edit root e).entries := by
  obtain ⟨names, some_, valid, path⟩ := normal.names
  obtain ⟨listed_none, no_file⟩ := admitted
  have blank (ys : List String)
      (found : standsAt d.entries (below root.parts names) = some (.dir ys)) : ys = [] := by
    rw [path] at listed_none
    have here_ : (root.join (.ofNames names)).parts = below root.parts names :=
      Path.join_parts root valid
    rw [readDir_eq (here_.symm ▸ found)] at listed_none
    have none_ := congrArg List.length listed_none
    simpa [Except.toOption] using none_
  cases e with
  | delete p =>
    rw [Edit.path] at path
    subst path
    exact remove_inOrder h some_root some_ valid blank
  | write p content =>
    rw [Edit.path] at path
    subst path
    refine addFile_inOrder h some_root some_ valid content blank ?_
    intro ms within other
    have valid_ms : ∀ s ∈ ms, IsName s := fun s hs => valid s (within.subset hs)
    have above : Path.ofNames ms ∈ (Path.ofNames names).above := by
      have shorter : ms.length < names.length := by
        have := within.length_le
        have : ms.length ≠ names.length := fun same => other (within.eq_of_length same)
        omega
      refine List.mem_map.mpr ⟨ms.length, ?_, ?_⟩
      · rw [Path.ofNames_parts valid, List.length_map, List.mem_range]
        exact shorter
      · rw [Path.ofNames_parts valid, ← List.map_take, ← List.prefix_iff_eq_take.mp within,
          Path.ofParts_names]
    have free := no_file _ above
    rw [isFile_eq, Path.join_parts root valid_ms, Option.isSome_eq_false_iff,
      Option.isNone_iff_eq_none] at free
    exact free

/-- A path below the root ends in a name. -/
theorem join_ends (root : Path) {p : Path} (normal : p.IsNormalized) :
    ∃ base name, (root.join p).parts = base ++ [.name name] ∧ (root.parts ≠ [] → base ≠ []) := by
  obtain ⟨names, some_, valid, rfl⟩ := normal.names
  obtain ⟨ns, x, rfl⟩ : ∃ ns x, names = ns ++ [x] :=
    ⟨_, _, (List.dropLast_concat_getLast some_).symm⟩
  refine ⟨below root.parts ns, x, ?_,
    fun some_root => List.append_ne_nil_of_left_ne_nil some_root _⟩
  exact (Path.join_parts root valid).trans (below_concat root.parts ns x)

/-- It is neither the root nor the place for relative paths. -/
theorem join_ne_root (root : Path) {p : Path} (normal : p.IsNormalized) :
    (root.join p).parts ≠ root.parts := by
  obtain ⟨names, some_, valid, rfl⟩ := normal.names
  rw [Path.join_parts root valid]
  simpa using some_

theorem join_ne_here (root : Path) {p : Path} (normal : p.IsNormalized) :
    (root.join p).parts ≠ [.here] := by
  obtain ⟨base, name, ends, _⟩ := join_ends root normal
  rw [ends]
  intro dot
  have last := congrArg List.getLast? dot
  simp at last

theorem join_injective (root : Path) {p q : Path} (hp : p.IsNormalized) (hq : q.IsNormalized)
    (h : (root.join p).parts = (root.join q).parts) : p = q := by
  rw [hp.join_parts, hq.join_parts] at h
  exact hp.ext hq (List.append_cancel_left h)

/-- An edit changes the bytes of its own file only. -/
theorem contentAt_edit {parts : List Part} (apart : (root.join e.path).parts ≠ parts) :
    contentAt (d.edit root e).entries parts = contentAt d.entries parts :=
  view_edit (fun _ => rfl) apart

theorem edit_faults : (d.edit root e).metadataFaults = d.metadataFaults := by
  cases e with
  | write => rfl
  | delete => rw [edit, remove_eq]

/-- A directory stays one while directories are made. -/
theorem link_dir {steps : Nat} {p : Path} {entries : List (Path × Entry)} {parts : List Part}
    (h : ∃ names, standsAt entries parts = some (.dir names)) :
    ∃ names, standsAt (link steps p entries) parts = some (.dir names) := by
  induction steps generalizing p entries with
  | zero => exact h
  | succ steps ih =>
    have named (dir : Path) (name : String) (entries : List (Path × Entry))
        (h : ∃ names, standsAt entries parts = some (.dir names)) :
        ∃ names, standsAt (addName dir name entries) parts = some (.dir names) := by
      obtain ⟨names, found⟩ := h
      rw [standsAt_addName]
      split
      next =>
        rw [found]
        exact ⟨_, rfl⟩
      next => exact ⟨names, found⟩
    unfold link
    split
    next => exact h
    next =>
      dsimp only
      split
      next => exact h
      next =>
        split
        next => exact named _ _ _ h
        next =>
          refine named _ _ _ (ih ?_)
          rw [standsAt_putAt]
          split
          next => exact ⟨[], rfl⟩
          next => exact h

/-- An edit leaves the root a directory. -/
theorem edit_root (some_root : root.parts ≠ []) (normal : e.path.IsNormalized)
    (h : ∃ names, standsAt d.entries root.parts = some (.dir names)) :
    ∃ names, standsAt (d.edit root e).entries root.parts = some (.dir names) := by
  obtain ⟨base, name, ends, some_base⟩ := join_ends root normal
  have other := join_ne_root root normal
  cases e with
  | write p content =>
    rw [Edit.path] at other
    refine link_dir ?_
    rw [standsAt_putAt, if_neg other]
    exact h
  | delete p =>
    rw [Edit.path] at other ends
    obtain ⟨names, found⟩ := h
    rw [edit, standsAt_remove d ends (some_base some_root), if_neg other]
    split
    next =>
      rw [found]
      exact ⟨_, rfl⟩
    next => exact ⟨names, found⟩

/-- Nothing ever stands at the path without parts. -/
theorem edit_blank (normal : e.path.IsNormalized) (h : standsAt d.entries [] = none) :
    standsAt (d.edit root e).entries [] = none := by
  obtain ⟨base, name, ends, _⟩ := join_ends root normal
  have other : (root.join e.path).parts ≠ [] := by
    rw [ends]
    simp
  cases e with
  | write p content =>
    rw [Edit.path] at other
    refine (standsAt_link _ _ (by simp) fun some_ => absurd rfl some_).trans ?_
    rw [standsAt_putAt, if_neg other]
    exact h
  | delete p =>
    rw [Edit.path] at other ends
    have holder : (holderOf (root.join p)).parts ≠ [] := by
      rw [Path.holder_parts ends]
      split <;> simp_all
    unfold edit remove
    dsimp only
    split
    next =>
      rw [standsAt_putAt, if_neg holder, standsAt_removeAt, if_neg other]
      exact h
    next =>
      rw [standsAt_removeAt, if_neg other]
      exact h

end StoryBuild.MemoryDisk
