import StoryBuild.Proofs.DiskEntries

namespace StoryBuild

/-- The parts of what stands below a root by some names. -/
def below (root : List Part) (names : List String) : List Part :=
  root ++ names.map .name

@[simp] theorem below_nil (root : List Part) : below root [] = root := by
  simp [below]

theorem below_concat (root : List Part) (ns : List String) (x : String) :
    below root (ns ++ [x]) = below root ns ++ [.name x] := by
  simp [below]

@[simp] theorem below_inj {root : List Part} {ns ms : List String} :
    below root ns = below root ms ↔ ns = ms := by
  unfold below
  rw [List.append_cancel_left_eq]
  exact List.map_inj_right fun _ _ same => Part.name.inj same

/-- Whether a directory stands at a place and lists a name. -/
def Lists (entries : List (Path × Entry)) (a : List Part) (x : String) : Prop :=
  ∃ names, standsAt entries a = some (.dir names) ∧ x ∈ names

/-- The order of the directories below a root. Some places are excepted from being listed. -/
structure Tree (root : List Part) (entries : List (Path × Entry)) (except_ : List String → Prop) :
    Prop where
  names : ∀ ns names, standsAt entries (below root ns) = some (.dir names) →
    names.Nodup ∧ ∀ x ∈ names, IsName x ∧ standsAt entries (below root (ns ++ [x])) ≠ none
  listed : ∀ ns x, ¬ except_ (ns ++ [x]) → standsAt entries (below root (ns ++ [x])) ≠ none →
    ∃ names, standsAt entries (below root ns) = some (.dir names) ∧ x ∈ names

/-- Whether the directories below a root list names, none of them twice. -/
def ListNames (root : List Part) (entries : List (Path × Entry)) : Prop :=
  ∀ ns names, standsAt entries (below root ns) = some (.dir names) →
    names.Nodup ∧ ∀ x ∈ names, IsName x

theorem Tree.listNames {root : List Part} {entries : List (Path × Entry)}
    {except_ : List String → Prop} (h : Tree root entries except_) : ListNames root entries :=
  fun ns names found => ⟨(h.names ns names found).1, fun x hx => ((h.names ns names found).2 x hx).1⟩

/-- The order goes by what stands below the root. -/
theorem Tree.congr {root : List Part} {entries other : List (Path × Entry)}
    {except_ : List String → Prop} (h : Tree root entries except_)
    (same : ∀ ns, standsAt other (below root ns) = standsAt entries (below root ns)) :
    Tree root other except_ := by
  constructor
  · intro ns names found
    rw [same] at found
    obtain ⟨nodup, each⟩ := h.names ns names found
    refine ⟨nodup, fun x hx => ?_⟩
    rw [same]
    exact each x hx
  · intro ns x free there
    rw [same] at there ⊢
    exact h.listed ns x free there

namespace MemoryDisk

variable {root : List Part} {entries : List (Path × Entry)} {except_ : List String → Prop}

section AddName

variable {holder : Path} {ns names : List String} {x : String}
  (here_ : holder.parts = below root ns)
  (found : standsAt entries (below root ns) = some (.dir names))

include here_ found

theorem standsAt_addName_below (ms : List String) :
    standsAt (addName holder x entries) (below root ms) =
      if ns = ms then some (withName x (.dir names)) else standsAt entries (below root ms) := by
  rw [standsAt_addName, here_]
  by_cases same : ns = ms
  · subst same
    rw [if_pos rfl, if_pos rfl, found]
    rfl
  · rw [if_neg (by simpa using same), if_neg same]

theorem addName_keeps {ms : List String} (some_ : standsAt entries (below root ms) ≠ none) :
    standsAt (addName holder x entries) (below root ms) ≠ none := by
  rw [standsAt_addName_below here_ found]
  split <;> simp_all

theorem addName_names (h : Tree root entries fun l => l = ns ++ [x] ∨ except_ l)
    (valid : IsName x) (there : standsAt entries (below root (ns ++ [x])) ≠ none)
    {ms ys : List String}
    (dir : standsAt (addName holder x entries) (below root ms) = some (.dir ys)) :
    ys.Nodup ∧ ∀ y ∈ ys, IsName y ∧
      standsAt (addName holder x entries) (below root (ms ++ [y])) ≠ none := by
  obtain ⟨nodup, each⟩ := h.names ns names found
  rw [standsAt_addName_below here_ found] at dir
  split at dir
  next same =>
    subst same
    rw [withName, Option.some.injEq, Entry.dir.injEq] at dir
    subst dir
    split
    next =>
      exact ⟨nodup, fun y hy => ⟨(each y hy).1, addName_keeps here_ found (each y hy).2⟩⟩
    next new =>
      refine ⟨List.nodup_append.mpr ⟨nodup, by simp, ?_⟩, ?_⟩
      · intro y hy z hz same
        rw [List.mem_singleton.mp hz] at same
        exact new (same ▸ hy)
      · intro y hy
        rcases List.mem_append.mp hy with hy | hy
        · exact ⟨(each y hy).1, addName_keeps here_ found (each y hy).2⟩
        · rw [List.mem_singleton.mp hy]
          exact ⟨valid, addName_keeps here_ found there⟩
  next =>
    obtain ⟨nodup', each'⟩ := h.names ms ys dir
    exact ⟨nodup', fun y hy => ⟨(each' y hy).1, addName_keeps here_ found (each' y hy).2⟩⟩

theorem addName_listed (h : Tree root entries fun l => l = ns ++ [x] ∨ except_ l)
    {ms : List String} {y : String} (free : ¬ except_ (ms ++ [y]))
    (some_ : standsAt (addName holder x entries) (below root (ms ++ [y])) ≠ none) :
    ∃ ys, standsAt (addName holder x entries) (below root ms) = some (.dir ys) ∧ y ∈ ys := by
  rw [standsAt_addName_below here_ found]
  by_cases mine : ms ++ [y] = ns ++ [x]
  · obtain ⟨rfl, last⟩ := List.append_inj' mine rfl
    rw [List.singleton_inj] at last
    subst last
    rw [if_pos rfl]
    refine ⟨_, rfl, ?_⟩
    split
    next mem => exact mem
    next => simp
  · have old : standsAt entries (below root (ms ++ [y])) ≠ none := by
      rw [standsAt_addName_below here_ found] at some_
      split at some_
      next same =>
        rw [← same, found]
        simp
      next => exact some_
    obtain ⟨names', dir, mem⟩ := h.listed ms y (not_or.mpr ⟨mine, free⟩) old
    by_cases same : ns = ms
    · subst same
      rw [found, Option.some.injEq, Entry.dir.injEq] at dir
      subst dir
      rw [if_pos rfl]
      refine ⟨_, rfl, ?_⟩
      split
      next => exact mem
      next => exact List.mem_append_left _ mem
    · rw [if_neg same]
      exact ⟨names', dir, mem⟩

/-- The directory of an excepted place lists it. -/
theorem addName_tree (h : Tree root entries fun l => l = ns ++ [x] ∨ except_ l)
    (valid : IsName x) (there : standsAt entries (below root (ns ++ [x])) ≠ none) :
    Tree root (addName holder x entries) except_ :=
  ⟨fun _ _ dir => addName_names here_ found h valid there dir,
    fun _ _ free some_ => addName_listed here_ found h free some_⟩

end AddName

/-- A new directory without names, which is not listed yet. -/
theorem newDir_tree {holder : Path} {ns : List String} (h : Tree root entries except_)
    (here_ : holder.parts = below root ns) (missing : standsAt entries (below root ns) = none) :
    Tree root (putAt holder (.dir []) entries) fun l => l = ns ∨ except_ l := by
  have stands : ∀ ms, standsAt (putAt holder (.dir []) entries) (below root ms) =
      if ns = ms then some (.dir []) else standsAt entries (below root ms) := by
    intro ms
    rw [standsAt_putAt, here_]
    simp only [below_inj]
  constructor
  · intro ms ys dir
    rw [stands] at dir
    split at dir
    next =>
      rw [Option.some.injEq, Entry.dir.injEq] at dir
      subst dir
      simp
    next =>
      obtain ⟨nodup, each⟩ := h.names ms ys dir
      refine ⟨nodup, fun y hy => ⟨(each y hy).1, ?_⟩⟩
      rw [stands]
      split
      next => simp
      next => exact (each y hy).2
  · intro ms y free some_
    rw [not_or] at free
    rw [stands, if_neg (Ne.symm free.1)] at some_
    obtain ⟨names, dir, mem⟩ := h.listed ms y free.2 some_
    have other : ns ≠ ms := by
      rintro rfl
      rw [missing] at dir
      simp at dir
    rw [stands, if_neg other]
    exact ⟨names, dir, mem⟩

/-- Listing a place below the root touches what is above it only. -/
theorem standsAt_link_below {p : Path} {ns ms : List String} (steps : Nat)
    (entries : List (Path × Entry)) (some_root : root ≠ []) (here_ : p.parts = below root ns)
    (not_above : ms <+: ns → ms = ns) :
    standsAt (link steps p entries) (below root ms) = standsAt entries (below root ms) := by
  by_cases dot : below root ms = [.here]
  · have no_names : ms = [] := by
      cases root with
      | nil => exact absurd rfl some_root
      | cons r rest =>
        have tail := (List.cons.inj dot).2
        exact List.map_eq_nil_iff.mp (List.append_eq_nil_iff.mp tail).2
    have root_place : ns = [] := by
      rw [← not_above (by simp [no_names]), no_names]
    rw [no_names] at dot
    rw [link_here (by rw [here_, root_place, dot])]
  · refine standsAt_link steps entries dot ?_
    intro _ within
    rw [here_] at within ⊢
    have names := (List.prefix_append_right_inj root).mp within
    obtain ⟨front, shorter, same⟩ := List.prefix_map_iff.mp names
    rw [List.map_inj_right fun _ _ same => Part.name.inj same] at same
    rw [not_above (same ▸ shorter)]

/-- Listing a place lists it, and every directory above it that has to be made. -/
theorem link_tree {steps : Nat} {p : Path} {ns : List String} {x : String}
    (h : Tree root entries fun l => l = ns ++ [x] ∨ except_ l) (some_root : root ≠ [])
    (here_ : p.parts = below root (ns ++ [x])) (enough : p.parts.length ≤ steps)
    (valid : ∀ y ∈ ns ++ [x], IsName y)
    (there : standsAt entries (below root (ns ++ [x])) ≠ none)
    (no_file : ∀ ms, ms <+: ns → contentAt entries (below root ms) = none) :
    Tree root (link steps p entries) except_ := by
  induction steps generalizing p ns x entries except_ with
  | zero =>
    rw [here_, below_concat] at enough
    simp at enough
  | succ steps ih =>
    have ends : p.parts = below root ns ++ [.name x] := here_.trans (below_concat root ns x)
    have holder : (holderOf p).parts = below root ns := by
      rw [Path.holder_parts ends, if_neg]
      intro none_
      exact some_root (List.append_eq_nil_iff.mp none_).1
    have other : (holderOf p == p) = false := by
      rw [Path.beq_false_iff, holder, ends]
      simp
    unfold link
    rw [Path.fileName_of_parts ends]
    dsimp only
    rw [other, lookup_eq, holder]
    cases found : standsAt entries (below root ns) with
    | some e =>
      have no_content := no_file ns (List.prefix_refl _)
      cases e with
      | file content modified => simp [contentAt, found, Entry.content?] at no_content
      | dir names => exact addName_tree holder found h (valid x (by simp)) there
    | none =>
      -- The directory that is made is listed by the next step up; until then it is excepted.
      have made := newDir_tree h holder found
      have new_dir : standsAt (putAt (holderOf p) (.dir []) entries) (below root ns) =
          some (.dir []) := by
        rw [standsAt_putAt, if_pos holder]
      have kept (ms : List String) (not_above : ms <+: ns → ms = ns) :=
        standsAt_link_below steps (putAt (holderOf p) (.dir []) entries) some_root holder not_above
      have listed : Tree root (link steps (holderOf p) (putAt (holderOf p) (.dir []) entries))
          fun l => l = ns ++ [x] ∨ except_ l := by
        have shape := List.eq_nil_or_concat ns
        simp only [List.concat_eq_append] at shape
        rcases shape with rfl | ⟨front, z, rfl⟩
        · have same (ms : List String) := kept ms List.prefix_nil.mp
          have plain : Tree root (putAt (holderOf p) (.dir []) entries)
              fun l => l = [] ++ [x] ∨ except_ l :=
            ⟨made.names, fun ms y free => made.listed ms y (not_or.mpr ⟨by simp, free⟩)⟩
          exact plain.congr same
        · refine ih made holder ?_ (fun y hy => valid y (List.mem_append_left _ hy)) ?_ ?_
          · rw [holder]
            rw [ends] at enough
            simpa using enough
          · rw [new_dir]
            simp
          · intro ms within
            rw [contentAt_putDir []]
            · exact no_file ms (within.trans (List.prefix_append _ _))
            · rw [contentAt, holder, found]
              rfl
      have found_dir := (kept ns fun _ => rfl).trans new_dir
      refine addName_tree holder found_dir listed (valid x (by simp)) ?_
      rw [kept (ns ++ [x]) fun within => absurd within.length_le (by simp), standsAt_putAt, holder,
        if_neg (by simp)]
      exact there

end MemoryDisk

end StoryBuild
