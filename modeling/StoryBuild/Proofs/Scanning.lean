import StoryBuild.Graph.Discovery
import StoryBuild.Proofs.DiskEdits

namespace StoryBuild

/-- Two conditions that exclude each other hold no more often than one that follows from both. -/
theorem countP_add_le {α : Type} {p q r : α → Bool} (apart : ∀ a, p a = true → q a = false)
    (hp : ∀ a, p a = true → r a = true) (hq : ∀ a, q a = true → r a = true) (l : List α) :
    l.countP p + l.countP q ≤ l.countP r := by
  induction l with
  | nil => simp
  | cons a rest ih =>
    have here_ := apart a
    have left := hp a
    have right := hq a
    rw [List.countP_cons, List.countP_cons, List.countP_cons]
    revert here_ left right
    cases p a <;> cases q a <;> cases r a <;> simp <;> omega

/-- Whether the directories below a root lead by some names: each lists the next one. -/
def LedTo (root : List Part) (entries : List (Path × Entry)) (names : List String) : Prop :=
  ∀ front x, front ++ [x] <+: names → Lists entries (below root front) x

theorem LedTo.snoc {root : List Part} {entries : List (Path × Entry)} {names : List String}
    {x : String} (h : LedTo root entries names) (last : Lists entries (below root names) x) :
    LedTo root entries (names ++ [x]) := by
  intro front y within
  rcases List.prefix_concat_iff.mp within with whole | within
  · obtain ⟨rfl, same⟩ := List.append_inj' whole rfl
    rw [List.singleton_inj] at same
    exact same ▸ last
  · exact h front y within

namespace MemoryDisk

/-- How many entries stand at a path or below it. -/
def sizeBelow (entries : List (Path × Entry)) (dir : Path) : Nat :=
  entries.countP fun e => dir.parts.isPrefixOf e.1.parts

/-- How many entries stand at some paths or below them, counted for each path. -/
def sizeBelowAll (entries : List (Path × Entry)) : List Path → Nat
  | [] => 0
  | dir :: rest => sizeBelow entries dir + sizeBelowAll entries rest

theorem sizeBelowAll_append (entries : List (Path × Entry)) (ps qs : List Path) :
    sizeBelowAll entries (ps ++ qs) = sizeBelowAll entries ps + sizeBelowAll entries qs := by
  induction ps with
  | nil => rw [List.nil_append, sizeBelowAll, Nat.zero_add]
  | cons p rest ih => rw [List.cons_append, sizeBelowAll, sizeBelowAll, ih, Nat.add_assoc]

theorem sizeBelowAll_reverse (entries : List (Path × Entry)) (ps : List Path) :
    sizeBelowAll entries ps.reverse = sizeBelowAll entries ps := by
  induction ps with
  | nil => rfl
  | cons p rest ih =>
    rw [List.reverse_cons, sizeBelowAll_append, ih, sizeBelowAll, sizeBelowAll, sizeBelowAll]
    omega

theorem sizeBelow_kids (entries : List (Path × Entry)) {base : List Part} {kids : List Path}
    (each : ∀ kid ∈ kids, ∃ x, kid.parts = base ++ [x])
    (apart : kids.Pairwise fun p q => p.parts ≠ q.parts) :
    sizeBelowAll entries kids ≤
      entries.countP fun e => kids.any fun kid => kid.parts.isPrefixOf e.1.parts := by
  induction kids with
  | nil => exact Nat.zero_le _
  | cons kid rest ih =>
    obtain ⟨others, rest_apart⟩ := List.pairwise_cons.mp apart
    have tail := ih (fun k hk => each k (by simp [hk])) rest_apart
    have both : sizeBelow entries kid +
        (entries.countP fun e => rest.any fun kid => kid.parts.isPrefixOf e.1.parts) ≤
        entries.countP fun e => (kid :: rest).any fun kid => kid.parts.isPrefixOf e.1.parts := by
      refine countP_add_le ?_ (fun e h => by simp [h]) (fun e h => by simp [h]) _
      intro e mine
      rw [List.any_eq_false]
      intro k hk theirs
      obtain ⟨x, kid_parts⟩ := each kid (by simp)
      obtain ⟨y, k_parts⟩ := each k (by simp [hk])
      have same_length : kid.parts.length = k.parts.length := by simp [kid_parts, k_parts]
      have within := List.prefix_of_prefix_length_le (List.isPrefixOf_iff_prefix.mp mine)
        (List.isPrefixOf_iff_prefix.mp theirs) (Nat.le_of_eq same_length)
      exact others k hk (within.eq_of_length same_length)
    rw [sizeBelowAll]
    omega

/-- What stands in a directory is less than what stands there with the directory itself. -/
theorem sizeBelow_dir {entries : List (Path × Entry)} {dir : Path} {kids : List Path}
    (there : standsAt entries dir.parts ≠ none)
    (each : ∀ kid ∈ kids, ∃ x, kid.parts = dir.parts ++ [x])
    (apart : kids.Pairwise fun p q => p.parts ≠ q.parts) :
    sizeBelowAll entries kids < sizeBelow entries dir := by
  have inner := sizeBelow_kids entries each apart
  have own : 0 < entries.countP fun e => e.1.parts == dir.parts := by
    rw [List.countP_pos_iff]
    rw [standsAt, ne_eq, Option.map_eq_none_iff, List.find?_eq_none] at there
    simpa using there
  have both : (entries.countP fun e => e.1.parts == dir.parts) +
      (entries.countP fun e => kids.any fun kid => kid.parts.isPrefixOf e.1.parts) ≤
      sizeBelow entries dir := by
    refine countP_add_le ?_ ?_ ?_ _
    · intro e here_
      rw [List.any_eq_false]
      intro kid hk within
      obtain ⟨x, kid_parts⟩ := each kid hk
      have longer := (List.isPrefixOf_iff_prefix.mp within).length_le
      rw [eq_of_beq here_, kid_parts, List.length_append, List.length_singleton] at longer
      omega
    · intro e here_
      rw [eq_of_beq here_]
      simp
    · intro e below_kid
      obtain ⟨kid, hk, within⟩ := List.any_eq_true.mp below_kid
      obtain ⟨x, kid_parts⟩ := each kid hk
      rw [List.isPrefixOf_iff_prefix] at within ⊢
      exact (List.prefix_append _ _).trans (kid_parts ▸ within)
  omega

/-- Above everything that stands below the root there are directories, and each lists the next. -/
theorem lists_above {root : List Part} {entries : List (Path × Entry)}
    (listed : ∀ ns x, standsAt entries (below root (ns ++ [x])) ≠ none →
      Lists entries (below root ns) x)
    {ns : List String} {x : String} {more : List String}
    (there : standsAt entries (below root (ns ++ x :: more)) ≠ none) :
    Lists entries (below root ns) x := by
  induction more generalizing ns x with
  | nil => exact listed ns x there
  | cons y more ih =>
    have shift : ns ++ x :: y :: more = (ns ++ [x]) ++ y :: more := by simp
    obtain ⟨names, found, _⟩ := ih (shift ▸ there)
    refine listed ns x ?_
    rw [found]
    simp

/-- What a directory lists, in some order and each path once. -/
theorem readDir_spec {d : MemoryDisk} {dir : Path} {names : List String}
    (found : standsAt d.entries dir.parts = some (.dir names)) (nodup : names.Nodup)
    (valid : ∀ x ∈ names, IsName x) :
    ∃ listing, Storage.readDir d dir = .ok listing ∧
      (∀ p, p ∈ listing ↔ ∃ x ∈ names, p = dir.join (.ofNames [x])) ∧
      listing.Pairwise fun p q => p.parts ≠ q.parts := by
  have one_name (x : String) : Path.ofText x = Path.ofNames [x] := Path.ext_text (by
    simp [Path.ofNames, Path.ofPieces, gather])
  let unsorted := names.map fun x => dir.join (.ofText x)
  have sorted := List.mergeSort_perm unsorted fun a b => !b.before a
  refine ⟨unsorted.mergeSort fun a b => !b.before a, readDir_eq found, ?_, ?_⟩
  · intro p
    rw [sorted.mem_iff, List.mem_map]
    simp only [one_name, eq_comm]
  · refine (sorted.pairwise_iff Ne.symm).mpr ?_
    rw [List.pairwise_map]
    refine List.Pairwise.imp_of_mem ?_ nodup
    intro x y hx hy other same
    rw [one_name, one_name, Path.join_parts dir (by simpa using valid x hx),
      Path.join_parts dir (by simpa using valid y hy)] at same
    exact other (by simpa using same)

end MemoryDisk

namespace FileGraph

variable {g : FileGraph} {d : MemoryDisk}

/-- Whether a path is a source file of the project that is on the disk. -/
def HasSource (g : FileGraph) (d : MemoryDisk) (p : Path) : Prop :=
  p.IsNormalized ∧ Storage.isFile d (g.absolute p) = true ∧ g.options.isSource p = true

/-- Whether a path is a source file of the project to which the directories lead. -/
def IsListed (g : FileGraph) (d : MemoryDisk) (p : Path) : Prop :=
  g.HasSource d p ∧
    ∃ names, p = .ofNames names ∧ (∀ s ∈ names, IsName s) ∧ LedTo g.root.parts d.entries names

/-- Whether the directories lead to the path of a source file, and no directory stands there. What
is listed there need not be on the disk. -/
def IsNamed (g : FileGraph) (d : MemoryDisk) (p : Path) : Prop :=
  (p.IsNormalized ∧ Storage.isDir d (g.absolute p) = false ∧ g.options.isSource p = true) ∧
    ∃ names, p = .ofNames names ∧ (∀ s ∈ names, IsName s) ∧ LedTo g.root.parts d.entries names

/-- Whether a directory stands below the root of the project, and others lead to it. -/
def Standing (g : FileGraph) (d : MemoryDisk) (dir : Path) : Prop :=
  ∃ ns, (∀ s ∈ ns, IsName s) ∧ dir.parts = below g.root.parts ns ∧
    LedTo g.root.parts d.entries ns ∧ Storage.isDir d dir = true

/-- Whether neither of two paths lies above the other. -/
def Aside (p q : Path) : Prop :=
  ¬ p.parts <+: q.parts ∧ ¬ q.parts <+: p.parts

theorem mem_sortEntries_dirs {listing : List Path} {p : Path} :
    p ∈ (g.sortEntries d listing).1 ↔
      p ∈ listing ∧ Storage.isDir d p = true ∧ ∃ rel, g.root.stripPrefix? p = some rel ∧
        (rel.fileName?.any fun name => name.startsWith ".") = false := by
  simp only [sortEntries, List.mem_map, List.mem_filter, List.mem_filterMap, Option.map_eq_some_iff,
    Bool.and_eq_true, Bool.not_eq_true']
  constructor
  · rintro ⟨_, ⟨⟨q, hq, rel, strip, rfl⟩, dir, shown⟩, rfl⟩
    exact ⟨hq, dir, rel, strip, shown⟩
  · rintro ⟨hp, dir, rel, strip, shown⟩
    exact ⟨(p, rel), ⟨⟨p, hp, rel, strip, rfl⟩, dir, shown⟩, rfl⟩

theorem mem_sortEntries_sources {listing : List Path} {rel : Path} :
    rel ∈ (g.sortEntries d listing).2 ↔
      ∃ p ∈ listing, g.root.stripPrefix? p = some rel ∧ Storage.isDir d p = false ∧
        g.options.isSource rel = true := by
  simp only [sortEntries, List.mem_map, List.mem_filter, List.mem_filterMap, Option.map_eq_some_iff,
    Bool.and_eq_true, Bool.not_eq_true']
  constructor
  · rintro ⟨_, ⟨⟨q, hq, rel, strip, rfl⟩, file, source⟩, rfl⟩
    exact ⟨q, hq, strip, file, source⟩
  · rintro ⟨p, hp, strip, file, source⟩
    exact ⟨(p, rel), ⟨⟨p, hp, rel, strip, rfl⟩, file, source⟩, rfl⟩

theorem sortEntries_dirs_sublist (listing : List Path) :
    (g.sortEntries d listing).1.Sublist listing := by
  have heads (l : List Path) : ((l.filterMap fun p =>
      (g.root.stripPrefix? p).map fun rel => (p, rel)).map Prod.fst).Sublist l := by
    induction l with
    | nil => exact List.Sublist.refl _
    | cons p rest ih =>
      cases strip : g.root.stripPrefix? p with
      | none => simpa [List.filterMap_cons, strip] using ih.cons p
      | some rel => simpa [List.filterMap_cons, strip] using ih.cons_cons p
  exact (List.filter_sublist.map _).trans (heads listing)

/-- The names under which a source lies are not hidden. -/
theorem isSource_shown {names : List String} (valid : ∀ s ∈ names, IsName s)
    (h : g.options.isSource (.ofNames names) = true) :
    ∀ s ∈ names, s.startsWith "." = false := by
  unfold GraphOptions.isSource at h
  rw [Bool.and_eq_true, Bool.and_eq_true, Bool.not_eq_true'] at h
  have shown := h.1.2
  rw [Path.isHidden, Path.ofNames_parts valid, List.any_map, List.any_eq_false] at shown
  intro s hs
  simpa using shown s hs

section Directory

variable {dir : Path} {ns names : List String} {listing : List Path}
  (order : ListNames g.root.parts d.entries) (valid : ∀ s ∈ ns, IsName s)
  (place : dir.parts = below g.root.parts ns)
  (found : standsAt d.entries dir.parts = some (.dir names))

include order valid place found

/-- What a directory lists stands below the root by one more name. -/
theorem named_spec {x : String} (hx : x ∈ names) :
    (∀ s ∈ ns ++ [x], IsName s) ∧
      (dir.join (.ofNames [x])).parts = below g.root.parts (ns ++ [x]) ∧
      g.root.stripPrefix? (dir.join (.ofNames [x])) = some (.ofNames (ns ++ [x])) := by
  have name := (order ns names (place ▸ found)).2 x hx
  have parts : (dir.join (.ofNames [x])).parts = below g.root.parts (ns ++ [x]) := by
    rw [Path.join_parts dir (by simpa using name), place, below_concat]
    rfl
  refine ⟨?_, parts, Path.stripPrefix_names parts⟩
  intro s hs
  rcases List.mem_append.mp hs with hs | hs
  · exact valid s hs
  · rw [List.mem_singleton.mp hs]
    exact name

variable (led : LedTo g.root.parts d.entries ns)
  (listed : ∀ p, p ∈ listing ↔ ∃ x ∈ names, p = dir.join (.ofNames [x]))

include listed

/-- A source that is listed in a directory lies there, and no directory does. -/
theorem source_place {rel : Path} (h : rel ∈ (g.sortEntries d listing).2) :
    ∃ x ∈ names, rel = .ofNames (ns ++ [x]) ∧
      (g.absolute rel).parts = dir.parts ++ [.name x] ∧ Storage.isDir d (g.absolute rel) = false ∧
      g.options.isSource rel = true := by
  obtain ⟨p, hp, strip, no_dir, source⟩ := mem_sortEntries_sources.mp h
  obtain ⟨x, hx, rfl⟩ := (listed p).mp hp
  obtain ⟨names_valid, parts, strip'⟩ := named_spec order valid place found hx
  rw [strip, Option.some.injEq] at strip'
  subst strip'
  have absolute : (g.absolute (.ofNames (ns ++ [x]))).parts = below g.root.parts (ns ++ [x]) :=
    Path.join_parts g.root names_valid
  refine ⟨x, hx, rfl, ?_, ?_, source⟩
  · rw [absolute, below_concat, place]
  · rw [MemoryDisk.isDir_eq_false, parts] at no_dir
    rw [MemoryDisk.isDir_eq_false, absolute]
    exact no_dir

theorem sources_nodup (apart : listing.Pairwise fun p q => p.parts ≠ q.parts) :
    (g.sortEntries d listing).2.Nodup := by
  unfold sortEntries
  dsimp only
  rw [List.Nodup, List.pairwise_map]
  refine List.Pairwise.filter _ ?_
  rw [List.pairwise_filterMap]
  refine apart.imp_of_mem fun {p q} hp hq other => ?_
  obtain ⟨x, hx, rfl⟩ := (listed p).mp hp
  obtain ⟨y, hy, rfl⟩ := (listed q).mp hq
  obtain ⟨valid_x, parts_x, strip_x⟩ := named_spec order valid place found hx
  obtain ⟨valid_y, parts_y, strip_y⟩ := named_spec order valid place found hy
  rintro _ h _ h' same
  rw [strip_x] at h
  rw [strip_y] at h'
  cases h
  cases h'
  refine other ?_
  rw [parts_x, parts_y, below_inj]
  exact Path.ofNames_injective valid_x valid_y (congrArg Path.parts same)

include led

theorem sources_spec {rel : Path} (h : rel ∈ (g.sortEntries d listing).2) :
    g.IsNamed d rel ∧ dir.parts <+: (g.absolute rel).parts := by
  obtain ⟨x, hx, rfl, parts, no_dir, source⟩ := source_place order valid place found listed h
  obtain ⟨names_valid, -, -⟩ := named_spec order valid place found hx
  have named : LedTo g.root.parts d.entries (ns ++ [x]) := led.snoc ⟨names, place ▸ found, hx⟩
  refine ⟨⟨⟨Path.isNormalized_ofNames (by simp) names_valid, no_dir, source⟩,
    _, rfl, names_valid, named⟩, ?_⟩
  rw [parts]
  exact List.prefix_append _ _

theorem dirs_spec {kid : Path} (h : kid ∈ (g.sortEntries d listing).1) :
    g.Standing d kid ∧ ∃ x, kid.parts = dir.parts ++ [x] := by
  obtain ⟨hp, is_dir, _⟩ := mem_sortEntries_dirs.mp h
  obtain ⟨x, hx, rfl⟩ := (listed kid).mp hp
  obtain ⟨names_valid, parts, _⟩ := named_spec order valid place found hx
  have named : LedTo g.root.parts d.entries (ns ++ [x]) := led.snoc ⟨names, place ▸ found, hx⟩
  refine ⟨⟨ns ++ [x], names_valid, parts, named, is_dir⟩, .name x, ?_⟩
  rw [parts, below_concat, place]

omit led in
/-- A source below a directory is listed there or lies below a directory that is. -/
theorem source_listed {rel : Path} (h : g.IsNamed d rel)
    (within : dir.parts <+: (g.absolute rel).parts) :
    rel ∈ (g.sortEntries d listing).2 ∨
      ∃ kid ∈ (g.sortEntries d listing).1, kid.parts <+: (g.absolute rel).parts := by
  obtain ⟨⟨-, no_dir, source⟩, ms, rfl, ms_valid, led⟩ := h
  have shown := isSource_shown ms_valid source
  have absolute : (g.absolute (.ofNames ms)).parts = below g.root.parts ms :=
    Path.join_parts g.root ms_valid
  rw [MemoryDisk.isDir_eq_false, absolute] at no_dir
  rw [absolute] at within ⊢
  rw [place] at within
  obtain ⟨front, ⟨more, rfl⟩, same⟩ :=
    List.prefix_map_iff.mp ((List.prefix_append_right_inj _).mp within)
  rw [List.map_inj_right fun _ _ same => Part.name.inj same] at same
  subst same
  cases more with
  | nil =>
    rw [List.append_nil, ← place] at no_dir
    exact absurd found (no_dir names)
  | cons x rest =>
    obtain ⟨names', found', hx⟩ := led ns x (by simp)
    rw [← place, found, Option.some.injEq, Entry.dir.injEq] at found'
    subst found'
    have hp := (listed _).mpr ⟨x, hx, rfl⟩
    obtain ⟨names_valid, parts, strip⟩ := named_spec order valid place found hx
    cases rest with
    | nil =>
      refine .inl (mem_sortEntries_sources.mpr ⟨_, hp, strip, ?_, source⟩)
      rw [MemoryDisk.isDir_eq_false, parts]
      exact no_dir
    | cons y rest =>
      have shift : ns ++ x :: y :: rest = (ns ++ [x]) ++ y :: rest := by simp
      obtain ⟨inner, dir_there, _⟩ := led (ns ++ [x]) y (by simp)
      refine .inr ⟨_, mem_sortEntries_dirs.mpr ⟨hp, ?_, _, strip, ?_⟩, ?_⟩
      · exact MemoryDisk.isDir_eq_true.mpr ⟨inner, parts ▸ dir_there⟩
      · have last : (Path.ofNames (ns ++ [x])).fileName? = some x :=
          Path.fileName_of_parts ((Path.ofNames_parts names_valid).trans List.map_append)
        rw [last]
        simpa using shown x (by simp)
      · have names_append : ((ns ++ [x]) ++ y :: rest).map Part.name =
            (ns ++ [x]).map .name ++ (y :: rest).map .name := List.map_append
        rw [parts, shift, below, below, names_append, ← List.append_assoc]
        exact List.prefix_append _ _

/-- The sources below a directory and a stack are those listed in the directory and those below
the directories that are walked next. -/
theorem mem_step {stack : List Path} {p : Path} :
    (p ∈ (g.sortEntries d listing).2 ∨ g.IsNamed d p ∧
      ∃ q ∈ (g.sortEntries d listing).1.reverse ++ stack, q.parts <+: (g.absolute p).parts) ↔
    g.IsNamed d p ∧ ∃ q ∈ dir :: stack, q.parts <+: (g.absolute p).parts := by
  constructor
  · rintro (here_ | ⟨source, q, hq, within⟩)
    · obtain ⟨source, within⟩ := sources_spec order valid place found led listed here_
      exact ⟨source, dir, by simp, within⟩
    · rcases List.mem_append.mp hq with hq | hq
      · obtain ⟨_, x, parts⟩ :=
          dirs_spec order valid place found led listed (List.mem_reverse.mp hq)
        exact ⟨source, dir, by simp, (List.prefix_append _ _).trans (parts ▸ within)⟩
      · exact ⟨source, q, by simp [hq], within⟩
  · rintro ⟨source, q, hq, within⟩
    rcases List.mem_cons.mp hq with rfl | hq
    · rcases source_listed order valid place found listed source within with
        here_ | ⟨kid, hk, inside⟩
      · exact .inl here_
      · exact .inr ⟨source, kid, by simp [hk], inside⟩
    · exact .inr ⟨source, q, by simp [hq], within⟩

/-- The directories that are walked next lie aside of each other. -/
theorem aside_step {stack : List Path} (apart : listing.Pairwise fun p q => p.parts ≠ q.parts)
    (aside : (dir :: stack).Pairwise Aside) :
    ((g.sortEntries d listing).1.reverse ++ stack).Pairwise Aside := by
  obtain ⟨first, rest⟩ := List.pairwise_cons.mp aside
  have kid_parts {kid : Path} (hk : kid ∈ (g.sortEntries d listing).1) :
      ∃ x, kid.parts = dir.parts ++ [x] := (dirs_spec order valid place found led listed hk).2
  refine List.pairwise_append.mpr ⟨List.pairwise_reverse.mpr ?_, rest, ?_⟩
  · refine (apart.sublist (sortEntries_dirs_sublist listing)).imp_of_mem fun hp hq other => ?_
    obtain ⟨x, hx⟩ := kid_parts hp
    obtain ⟨y, hy⟩ := kid_parts hq
    have same_length : _ := congrArg List.length hx
    have same_length' : _ := congrArg List.length hy
    rw [List.length_append, List.length_singleton] at same_length same_length'
    exact ⟨fun within => other (within.eq_of_length (by omega)).symm,
      fun within => other (within.eq_of_length (by omega))⟩
  · intro kid hk q hq
    obtain ⟨x, hx⟩ := kid_parts (List.mem_reverse.mp hk)
    refine ⟨fun within => (first q hq).1 ?_, fun within => ?_⟩
    · exact (List.prefix_append _ _).trans (hx ▸ within)
    · rw [hx, List.prefix_concat_iff] at within
      rcases within with same | within
      · exact (first q hq).1 (same ▸ List.prefix_append _ _)
      · exact (first q hq).2 within

/-- What is listed in a directory is met nowhere else. -/
theorem met_once {stack : List Path} {p : Path} (aside : (dir :: stack).Pairwise Aside)
    (hp : p ∈ (g.sortEntries d listing).2) :
    ¬ ∃ q ∈ (g.sortEntries d listing).1.reverse ++ stack, q.parts <+: (g.absolute p).parts := by
  rintro ⟨q, hq, within⟩
  obtain ⟨x, -, -, parts, no_dir, -⟩ := source_place order valid place found listed hp
  rcases List.mem_append.mp hq with hq | hq
  · have is_dir := (mem_sortEntries_dirs.mp (List.mem_reverse.mp hq)).2.1
    obtain ⟨-, y, kid_parts⟩ :=
      dirs_spec order valid place found led listed (List.mem_reverse.mp hq)
    have same : q.parts = (g.absolute p).parts := by
      refine within.eq_of_length ?_
      rw [parts, kid_parts]
      simp
    rw [MemoryDisk.isDir_eq_true, same] at is_dir
    obtain ⟨ys, is_dir⟩ := is_dir
    exact MemoryDisk.isDir_eq_false.mp no_dir ys is_dir
  · have first := (List.pairwise_cons.mp aside).1 q hq
    rw [parts, List.prefix_concat_iff] at within
    rcases within with same | within
    · exact first.1 (same ▸ List.prefix_append _ _)
    · exact first.2 within

end Directory

/-- A scan with enough steps finds every source to which the directories on its stack lead, each
once. -/
theorem scanFrom_spec (order : ListNames g.root.parts d.entries)
    {steps : Nat} {stack : List Path} (standing : ∀ dir ∈ stack, g.Standing d dir)
    (aside : stack.Pairwise Aside) (enough : MemoryDisk.sizeBelowAll d.entries stack ≤ steps) :
    ∃ found, g.scanFrom d steps stack = .ok found ∧ found.Nodup ∧
      ∀ p, p ∈ found ↔ g.IsNamed d p ∧ ∃ dir ∈ stack, dir.parts <+: (g.absolute p).parts := by
  -- A directory weighs more than all that it lists, so every step makes the stack lighter.
  induction steps generalizing stack with
  | zero =>
    cases stack with
    | nil => exact ⟨[], rfl, .nil, by simp⟩
    | cons dir stack =>
      obtain ⟨ns, _, _, _, is_dir⟩ := standing dir (by simp)
      obtain ⟨names, found⟩ := MemoryDisk.isDir_eq_true.mp is_dir
      have some_ : standsAt d.entries dir.parts ≠ none := by simp [found]
      have own : MemoryDisk.sizeBelowAll d.entries [] < MemoryDisk.sizeBelow d.entries dir :=
        MemoryDisk.sizeBelow_dir some_ (by simp) .nil
      rw [MemoryDisk.sizeBelowAll] at enough
      omega
  | succ steps ih =>
    cases stack with
    | nil => exact ⟨[], rfl, .nil, by simp⟩
    | cons dir stack =>
      obtain ⟨ns, valid, place, led, is_dir⟩ := standing dir (by simp)
      obtain ⟨names, found⟩ := MemoryDisk.isDir_eq_true.mp is_dir
      obtain ⟨nodup, each⟩ := order ns names (place ▸ found)
      obtain ⟨listing, read, listed, apart⟩ := MemoryDisk.readDir_spec found nodup each
      have kid_spec : ∀ kid ∈ (g.sortEntries d listing).1,
          g.Standing d kid ∧ ∃ x, kid.parts = dir.parts ++ [x] :=
        fun _ hk => dirs_spec order valid place found led listed hk
      have shrinks : MemoryDisk.sizeBelowAll d.entries (g.sortEntries d listing).1 <
          MemoryDisk.sizeBelow d.entries dir :=
        MemoryDisk.sizeBelow_dir (by simp [found]) (fun kid hk => (kid_spec kid hk).2)
          (apart.sublist (sortEntries_dirs_sublist listing))
      have rest := @ih ((g.sortEntries d listing).1.reverse ++ stack) ?_
        (aside_step order valid place found led listed apart aside) ?_
      · obtain ⟨found_rest, scanned, once, mem⟩ := rest
        refine ⟨(g.sortEntries d listing).2 ++ found_rest, ?_, ?_, fun p => ?_⟩
        · rw [scanFrom, read]
          simp only [bind, Except.bind, scanned]
          rfl
        · refine List.nodup_append.mpr
            ⟨sources_nodup order valid place found listed apart, once, ?_⟩
          rintro p hp _ hq rfl
          exact met_once order valid place found led listed aside hp ((mem p).mp hq).2
        · rw [List.mem_append, mem]
          exact mem_step order valid place found led listed
      · intro q hq
        rcases List.mem_append.mp hq with hq | hq
        · exact (kid_spec q (List.mem_reverse.mp hq)).1
        · exact standing q (by simp [hq])
      · rw [MemoryDisk.sizeBelowAll] at enough
        rw [MemoryDisk.sizeBelowAll_append, MemoryDisk.sizeBelowAll_reverse]
        omega

/-- A scan of a project whose root is a directory finds the paths of sources to which the
directories lead, each once. -/
theorem scan_names (order : ListNames g.root.parts d.entries)
    (root : Storage.isDir d g.root = true) :
    ∃ found : List Path, g.scan d = .ok (found.mergeSort fun a b => !b.before a) ∧ found.Nodup ∧
      ∀ p, p ∈ found ↔ g.IsNamed d p := by
  have enough : MemoryDisk.sizeBelowAll d.entries [g.root] ≤ Storage.size d := by
    have few : MemoryDisk.sizeBelow d.entries g.root ≤ d.entries.length := List.countP_le_length
    change _ ≤ d.entries.length + 1
    rw [MemoryDisk.sizeBelowAll, MemoryDisk.sizeBelowAll]
    omega
  have standing : ∀ dir ∈ [g.root], g.Standing d dir := by
    intro dir hd
    rw [List.mem_singleton.mp hd]
    exact ⟨[], by simp, (below_nil _).symm, by simp [LedTo], root⟩
  obtain ⟨found, scanned, once, mem⟩ :=
    scanFrom_spec order standing (List.pairwise_singleton _ _) enough
  refine ⟨found, by rw [scan, scanned]; rfl, once, ?_⟩
  intro p
  rw [mem]
  refine ⟨fun h => h.1, fun source => ⟨source, g.root, by simp, ?_⟩⟩
  obtain ⟨-, names, rfl, valid, -⟩ := source
  rw [absolute, Path.join_parts g.root valid]
  exact List.prefix_append _ _

/-- A scan starts in a directory. -/
theorem scan_root {found : List Path} (scanned : g.scan d = .ok found) :
    Storage.isDir d g.root = true := by
  cases is_dir : Storage.isDir d g.root with
  | true => rfl
  | false =>
    have size : Storage.size d = d.entries.length + 1 := rfl
    rw [scan, size, scanFrom, MemoryDisk.readDir_error is_dir] at scanned
    cases scanned

/-- A scan finds normal paths of sources. -/
theorem scan_normal (order : ListNames g.root.parts d.entries) {found : List Path}
    (scanned : g.scan d = .ok found) :
    ∀ p ∈ found, p.IsNormalized ∧ g.options.isSource p = true := by
  obtain ⟨l, scanned', -, mem⟩ := scan_names order (scan_root scanned)
  obtain rfl := Except.ok.inj (scanned'.symm.trans scanned)
  intro p hp
  obtain ⟨⟨normal, -, source⟩, -⟩ := (mem p).mp ((List.mergeSort_perm l _).mem_iff.mp hp)
  exact ⟨normal, source⟩

/-- A file is a source to which the directories lead if they lead to its path. -/
theorem isListed_of_isFile {p : Path} (file : Storage.isFile d (g.absolute p) = true) :
    g.IsListed d p ↔ g.IsNamed d p := by
  have no_dir : Storage.isDir d (g.absolute p) = false := by
    rw [MemoryDisk.isFile_eq, contentAt] at file
    rw [MemoryDisk.isDir_eq_false]
    intro names found
    rw [found] at file
    cases file
  rw [IsListed, IsNamed, HasSource, file, no_dir]
  simp

/-- If everything listed is there, the paths of sources that are listed are those of files. -/
theorem isListed_iff_isNamed {except_ : List String → Prop}
    (order : Tree g.root.parts d.entries except_) {p : Path} : g.IsListed d p ↔ g.IsNamed d p := by
  refine ⟨fun listed => (isListed_of_isFile listed.1.2.1).mp listed, fun named => ?_⟩
  refine (isListed_of_isFile ?_).mpr named
  obtain ⟨⟨normal, no_dir, -⟩, names, rfl, valid, led⟩ := named
  have some_ : names ≠ [] := by
    obtain ⟨ms, some_, ms_valid, same⟩ := normal.names
    exact Path.ofNames_injective valid ms_valid (congrArg Path.parts same) ▸ some_
  obtain ⟨ns, x, rfl⟩ : ∃ ns x, names = ns ++ [x] :=
    ⟨_, _, (List.dropLast_concat_getLast some_).symm⟩
  obtain ⟨ys, found, hx⟩ := led ns x (List.prefix_refl _)
  have there := ((order.names ns ys found).2 x hx).2
  have place : (g.absolute (.ofNames (ns ++ [x]))).parts = below g.root.parts (ns ++ [x]) :=
    Path.join_parts g.root valid
  rw [MemoryDisk.isDir_eq_false, place] at no_dir
  rw [MemoryDisk.isFile_eq, place, contentAt]
  cases stands : standsAt d.entries (below g.root.parts (ns ++ [x])) with
  | none => exact absurd stands there
  | some e =>
    cases e with
    | file => rfl
    | dir names => exact absurd stands (no_dir names)

/-- A scan of a project whose root is a directory finds the sources to which the directories lead,
each once. -/
theorem scan_lists {except_ : List String → Prop} (order : Tree g.root.parts d.entries except_)
    (root : Storage.isDir d g.root = true) :
    ∃ found : List Path, g.scan d = .ok (found.mergeSort fun a b => !b.before a) ∧ found.Nodup ∧
      ∀ p, p ∈ found ↔ g.IsListed d p := by
  obtain ⟨found, scanned, once, mem⟩ := scan_names order.listNames root
  exact ⟨found, scanned, once, fun p => (mem p).trans (isListed_iff_isNamed order).symm⟩

/-- The directories lead to every source if what is there is listed. -/
theorem isListed_of_hasSource
    (listed : ∀ ns x, standsAt d.entries (below g.root.parts (ns ++ [x])) ≠ none →
      Lists d.entries (below g.root.parts ns) x)
    {p : Path} (source : g.HasSource d p) : g.IsListed d p := by
  refine ⟨source, ?_⟩
  obtain ⟨names, -, valid, rfl⟩ := source.1.names
  refine ⟨names, rfl, valid, ?_⟩
  rintro front x ⟨more, rfl⟩
  have place : (g.absolute (.ofNames (front ++ [x] ++ more))).parts =
      below g.root.parts (front ++ x :: more) :=
    (Path.join_parts g.root valid).trans (by simp [below])
  have there : standsAt d.entries (below g.root.parts (front ++ x :: more)) ≠ none := by
    intro missing
    have file := source.2.1
    rw [MemoryDisk.isFile_eq, place, contentAt, missing] at file
    cases file
  exact MemoryDisk.lists_above listed there

/-- The directories lead to every source if they are in order. -/
theorem isListed_iff (order : MemoryDisk.InOrder g.root.parts d.entries) {p : Path} :
    g.IsListed d p ↔ g.HasSource d p :=
  ⟨fun h => h.1, isListed_of_hasSource fun ns x => order.listed ns x id⟩

/-- A scan of a project whose root is a directory finds the sources on the disk. -/
theorem scan_spec (order : MemoryDisk.InOrder g.root.parts d.entries)
    (root : Storage.isDir d g.root = true) :
    ∃ found, g.scan d = .ok found ∧ ∀ p, p ∈ found ↔ g.HasSource d p := by
  obtain ⟨found, scanned, -, mem⟩ := scan_lists order root
  refine ⟨_, scanned, fun p => ?_⟩
  rw [(List.mergeSort_perm _ _).mem_iff, mem, isListed_iff order]

end FileGraph

end StoryBuild
