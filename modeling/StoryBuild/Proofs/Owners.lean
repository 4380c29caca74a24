import Mathlib.Data.List.Nodup
import Mathlib.Data.List.Pairwise
import Mathlib.Data.List.Perm.Subperm
import Mathlib.Logic.Relation
import StoryBuild.Proofs.IncludeEdges

namespace StoryBuild

/-- The members of the cycle that an issue reports. -/
def Issue.members? : Issue → Option (List Path)
  | cycle members => some members
  | _ => none

/-- The cycles that a file is said to lie on. -/
def SourceFile.cycles (f : SourceFile) : List (List Path) :=
  f.issues.filterMap Issue.members?

namespace FileGraph

open Relation

variable {g : FileGraph} {next : SourceFile → List Path} {f k j m : SourceFile} {p q : Path}

/-- An edge between tracked files. -/
def Along (g : FileGraph) (next : SourceFile → List Path) (f k : SourceFile) : Prop :=
  f ∈ g.files ∧ k ∈ g.files ∧ ∃ t ∈ next f, t.parts = k.path.parts

/-- An include edge between tracked files. -/
def Edge (g : FileGraph) (f k : SourceFile) : Prop :=
  f ∈ g.files ∧ k ∈ g.files ∧ f.Includes k.path

/-- What a path leads to is what its record reaches along edges between tracked files. -/
theorem leads_iff (order : InPathOrder g.files) (hf : f ∈ g.files) :
    g.Leads next [] f.path k ↔ ReflTransGen (g.Along next) f k := by
  constructor
  · intro leads
    have go {p : Path} {k : SourceFile} (leads : g.Leads next [] p k) :
        ∀ f, g.file? p = some f → ReflTransGen (g.Along next) f k := by
      induction leads with
      | here _ found =>
        intro f found'
        obtain rfl := Option.some.inj (found.symm.trans found')
        exact .refl
      | @there p q first k _ found edge rest ih =>
        intro f found'
        obtain rfl := Option.some.inj (found.symm.trans found')
        obtain ⟨j, onward⟩ := rest.found
        obtain ⟨hj, path⟩ := file_found onward
        exact .head ⟨(file_found found).1, hj, q, edge, path.symm⟩ (ih j onward)
    exact go leads f (file_of_mem order hf)
  · intro way
    induction way with
    | refl => exact .here rfl (file_of_mem order hf)
    | @tail j k _ edge ih =>
      obtain ⟨-, hk, t, ht, path⟩ := edge
      exact ih.snoc ht ((file_congr_parts path).trans (file_of_mem order hk))

theorem mem_reach_iff (order : InPathOrder g.files) (hf : f ∈ g.files) (hk : k ∈ g.files) :
    k.path ∈ g.reach next f.path ↔ ReflTransGen (g.Along next) f k := by
  rw [mem_reach]
  constructor
  · rintro ⟨j, leads, path⟩
    obtain rfl := order.unique leads.mem hk (by rw [path])
    exact (leads_iff order hf).mp leads
  · exact fun way => ⟨k, (leads_iff order hf).mpr way, rfl⟩

theorem any_reach_iff (order : InPathOrder g.files) (hf : f ∈ g.files) (hk : k ∈ g.files) :
    (g.reach next f.path).any (· == k.path) = true ↔ ReflTransGen (g.Along next) f k := by
  rw [← mem_reach_iff order hf hk, List.any_eq_true]
  constructor
  · rintro ⟨x, hx, same⟩
    obtain ⟨j, leads, rfl⟩ := mem_reach.mp hx
    rwa [← order.unique leads.mem hk (Path.beq_iff.mp same)]
  · exact fun hk => ⟨k.path, hk, Path.beq_iff.mpr rfl⟩

/-- Paths in their order. -/
def sortPaths (paths : List Path) : List Path :=
  paths.mergeSort fun a b => !b.before a

theorem nodup_of_sorted {l : List Path} (sorted : l.Pairwise fun a b => a.before b = true) :
    l.Nodup :=
  sorted.imp fun before same => Path.before_ne before (congrArg Path.parts same)

theorem sortPaths_pairwise (l : List Path) :
    (sortPaths l).Pairwise fun a b => (!b.before a) = true := by
  have not_after (a b : Path) : (!b.before a) = (compare a.parts b.parts).isLE := by
    have lt := Path.before_iff (p := b) (q := a)
    rw [← Std.OrientedCmp.gt_iff_lt] at lt
    cases found : compare a.parts b.parts <;> simp_all
  have trans (a b c : Path) (ab : (!b.before a) = true) (bc : (!c.before b) = true) :
      (!c.before a) = true := by
    rw [not_after] at ab bc ⊢
    exact Std.TransCmp.isLE_trans ab bc
  have total (a b : Path) : (!b.before a || !a.before b) = true := by
    cases ab : a.before b with
    | true => simp [Path.before_asymm ab]
    | false => simp
  exact List.pairwise_mergeSort trans total l

/-- Different paths are sorted strictly. -/
theorem sortPaths_strict {l : List Path} (distinct : l.Pairwise fun p q => p.parts ≠ q.parts) :
    (sortPaths l).Pairwise fun a b => a.before b = true := by
  have apart : (sortPaths l).Pairwise fun p q => p.parts ≠ q.parts :=
    ((List.mergeSort_perm l _).pairwise_iff Ne.symm).mpr distinct
  refine ((sortPaths_pairwise l).and apart).imp ?_
  rintro a b ⟨not_after, other⟩
  exact Path.before_total (by simpa using not_after) (Ne.symm other)

/-- Sorting leads to the sorted paths, if there are any. -/
theorem sortPaths_eq {l sorted : List Path} (same : l.Perm sorted)
    (order : sorted.Pairwise fun a b => a.before b = true) : sortPaths l = sorted := by
  have weak : sorted.Pairwise fun a b => (!b.before a) = true :=
    order.imp fun before => by simp [Path.before_asymm before]
  have perm : (sortPaths l).Perm sorted := (List.mergeSort_perm l _).trans same
  refine perm.eq_of_pairwise (fun a b ha hb ab ba => ?_) (sortPaths_pairwise l) weak
  -- Of two different paths in a sorted list one is before the other.
  by_contra other
  have either : sorted.Pairwise fun a b => a.before b = true ∨ b.before a = true :=
    order.imp .inl
  have symmetric : Std.Symm fun a b : Path => a.before b = true ∨ b.before a = true :=
    ⟨fun _ _ => Or.symm⟩
  rcases either.forall (perm.mem_iff.mp ha) hb other with before | before
  · simp [before] at ba
  · simp [before] at ab

theorem sorted_ext {l l' : List Path} (sorted : l.Pairwise fun a b => a.before b = true)
    (sorted' : l'.Pairwise fun a b => a.before b = true) (same : ∀ p, p ∈ l ↔ p ∈ l') : l = l' := by
  have perm : l.Perm l' :=
    (List.perm_ext_iff_of_nodup (nodup_of_sorted sorted) (nodup_of_sorted sorted')).mpr same
  exact (sortPaths_eq (.refl l) sorted).symm.trans (sortPaths_eq perm sorted')

/-- Whether the parents and masters on record are those that a computation of ownership finds. -/
structure Owned (g : FileGraph) : Prop where
  parents : ∀ f ∈ g.files, f.parents = g.parentsOf f.path
  masters : ∀ f ∈ g.files, f.masters = g.mastersOf f.path

theorem Linked.owned (linked : g.Linked) : g.Owned :=
  ⟨fun _ hf => (linked.records hf).2.1, fun _ hf => (linked.records hf).2.2⟩

section Owned

variable (owned : g.Owned) (order : InPathOrder g.files)

include owned

theorem Owned.mem_parents (hf : f ∈ g.files) :
    p ∈ f.parents ↔ ∃ k ∈ g.files, k.path = p ∧ k.Includes f.path := by
  rw [owned.parents f hf, parentsOf, List.mem_map]
  refine exists_congr fun k => ?_
  rw [List.mem_filter, SourceFile.Includes, List.any_eq_true]
  simp only [Path.beq_iff]
  tauto

/-- A file without parents is reached from nothing else. -/
theorem Owned.reaches_master (hf : f ∈ g.files) (none_ : f.parents = [])
    (way : ReflTransGen g.Edge m f) : m = f := by
  rcases way.cases_tail with rfl | ⟨j, -, hj, -, includes⟩
  · rfl
  · have parent := (owned.mem_parents hf).mpr ⟨j, hj, rfl, includes⟩
    rw [none_] at parent
    cases parent

include order

/-- The edges to the parents are the include edges, taken backwards. -/
theorem Owned.along_parents : g.Along SourceFile.parents f k ↔ g.Edge k f := by
  constructor
  · rintro ⟨hf, hk, t, ht, path⟩
    obtain ⟨j, hj, rfl, includes⟩ := (owned.mem_parents hf).mp ht
    obtain rfl := order.unique hj hk path
    exact ⟨hk, hf, includes⟩
  · rintro ⟨hk, hf, includes⟩
    exact ⟨hf, hk, k.path, (owned.mem_parents hf).mpr ⟨k, hk, rfl, includes⟩, rfl⟩

theorem Owned.reaches_parents :
    ReflTransGen (g.Along SourceFile.parents) f k ↔ ReflTransGen g.Edge k f := by
  have edges : g.Along SourceFile.parents = Function.swap g.Edge := by
    funext f k
    exact propext (owned.along_parents order)
  rw [edges, reflTransGen_swap]

theorem Owned.mem_masters_iff (hf : f ∈ g.files) :
    p ∈ f.masters ↔ ∃ m ∈ g.files, m.path = p ∧ m.parents = [] ∧ ReflTransGen g.Edge m f := by
  rw [owned.masters f hf, mastersOf, List.mem_map]
  refine exists_congr fun m => ?_
  rw [List.mem_filter, Bool.and_eq_true, SourceFile.isMaster, List.isEmpty_iff]
  constructor
  · rintro ⟨⟨hm, none_, above⟩, path⟩
    exact ⟨hm, path, none_,
      (owned.reaches_parents order).mp ((any_reach_iff order hf hm).mp above)⟩
  · rintro ⟨hm, path, none_, way⟩
    exact ⟨⟨hm, none_,
      (any_reach_iff order hf hm).mpr ((owned.reaches_parents order).mpr way)⟩, path⟩

/-- A file without parents is its own master. -/
theorem Owned.masters_of_master (hf : f ∈ g.files) (none_ : f.parents = []) :
    f.masters = [f.path] := by
  have sorted : f.masters.Pairwise fun p q => p.before q = true := by
    rw [owned.masters f hf]
    exact List.pairwise_map.mpr (order.filter _)
  refine sorted_ext sorted (List.pairwise_singleton _ _) fun p => ?_
  rw [owned.mem_masters_iff order hf, List.mem_singleton]
  constructor
  · rintro ⟨m, hm, rfl, -, way⟩
    rw [owned.reaches_master hf none_ way]
  · rintro rfl
    exact ⟨f, hf, rfl, none_, .refl⟩

/-- The family of a master holds the files that know it. -/
theorem Owned.mem_family_iff (hm : m ∈ g.files) (none_ : m.parents = []) (hf : f ∈ g.files) :
    f.path ∈ g.family m.path ↔ m.path ∈ f.masters := by
  rw [owned.mem_masters_iff order hf, family, mem_reach_iff order hm hf]
  constructor
  · exact fun way => ⟨m, hm, rfl, none_, way⟩
  · rintro ⟨k, hk, path, -, way⟩
    rwa [← order.unique hk hm (by rw [path])]

end Owned

section Linked

variable (linked : g.Linked) (order : InPathOrder g.files)

include linked

theorem Linked.mem_parents (hf : f ∈ g.files) :
    p ∈ f.parents ↔ ∃ k ∈ g.files, k.path = p ∧ k.Includes f.path :=
  linked.owned.mem_parents hf

theorem Linked.reaches_master (hf : f ∈ g.files) (none_ : f.parents = [])
    (way : ReflTransGen g.Edge m f) : m = f :=
  linked.owned.reaches_master hf none_ way

include order

theorem Linked.mem_masters_iff (hf : f ∈ g.files) :
    p ∈ f.masters ↔ ∃ m ∈ g.files, m.path = p ∧ m.parents = [] ∧ ReflTransGen g.Edge m f :=
  linked.owned.mem_masters_iff order hf

end Linked

theorem mem_circleOf (order : InPathOrder g.files) (hf : f ∈ g.files) :
    p ∈ g.circleOf f.path ↔ ∃ k ∈ g.files, k.path = p ∧ ReflTransGen g.Edge f k ∧
      ReflTransGen g.Edge k f := by
  have way {a b : SourceFile} (ha : a ∈ g.files) (hb : b ∈ g.files) :
      (g.family a.path).any (· == b.path) = true ↔ ReflTransGen g.Edge a b :=
    any_reach_iff order ha hb
  rw [circleOf, List.mem_map]
  refine exists_congr fun k => ?_
  rw [List.mem_filter, Bool.and_eq_true]
  constructor
  · rintro ⟨⟨hk, below, above⟩, path⟩
    exact ⟨hk, path, (way hf hk).mp below, (way hk hf).mp above⟩
  · rintro ⟨hk, path, below, above⟩
    exact ⟨⟨hk, (way hf hk).mpr below, (way hk hf).mpr above⟩, path⟩

theorem mem_own_circle (order : InPathOrder g.files) (hf : f ∈ g.files) :
    f.path ∈ g.circleOf f.path :=
  (mem_circleOf order hf).mpr ⟨f, hf, rfl, .refl, .refl⟩

theorem paths_sorted (order : InPathOrder g.files) :
    g.paths.Pairwise fun a b => a.before b = true :=
  List.pairwise_map.mpr order

theorem circleOf_sorted (order : InPathOrder g.files) (p : Path) :
    (g.circleOf p).Pairwise fun a b => a.before b = true :=
  List.pairwise_map.mpr (order.filter _)

/-- A file that reaches itself shares its circle with two others: the one it includes first and
the one that includes it last, which differ since no two files include each other. -/
theorem Linked.three_on_cycle (linked : g.Linked) (order : InPathOrder g.files)
    (hf : f ∈ g.files) (around : TransGen g.Edge f f) : 3 ≤ (g.circleOf f.path).length := by
  obtain ⟨k, first, onward⟩ := TransGen.head'_iff.mp around
  obtain ⟨j, before, last⟩ := TransGen.tail'_iff.mp around
  obtain ⟨-, hk, to_k⟩ := first
  obtain ⟨hj, -, from_j⟩ := last
  have k_other : f.path ≠ k.path := fun same => linked.not_itself order hf (same ▸ to_k)
  have j_other : f.path ≠ j.path := fun same => linked.not_itself order hj (same ▸ from_j)
  have apart : k.path ≠ j.path := by
    intro same
    obtain rfl := order.unique hk hj (by rw [same])
    exact linked.one_way order hf hk to_k from_j
  have members : [f.path, k.path, j.path] ⊆ g.circleOf f.path := by
    simp only [List.cons_subset, mem_circleOf order hf, List.nil_subset, and_true]
    exact ⟨⟨f, hf, rfl, .refl, .refl⟩, ⟨k, hk, rfl, .single ⟨hf, hk, to_k⟩, onward⟩,
      ⟨j, hj, rfl, before, .single ⟨hj, hf, from_j⟩⟩⟩
  have distinct : [f.path, k.path, j.path].Nodup := by simp [k_other, j_other, apart]
  exact (distinct.subperm members).length_le

/-- A file is alone in its circle unless it reaches itself. -/
theorem circleOf_alone (order : InPathOrder g.files) (hf : f ∈ g.files)
    (straight : ¬ TransGen g.Edge f f) : g.circleOf f.path = [f.path] := by
  refine sorted_ext (circleOf_sorted order _) (List.pairwise_singleton _ _) fun p => ?_
  rw [mem_circleOf order hf, List.mem_singleton]
  constructor
  · rintro ⟨k, hk, rfl, below, above⟩
    rcases below.cases_head with rfl | ⟨j, edge, onward⟩
    · rfl
    · exact absurd (TransGen.head' edge (onward.trans above)) straight
  · rintro rfl
    exact (mem_circleOf order hf).mp (mem_own_circle order hf)

theorem circleOf_eq (order : InPathOrder g.files) (hf : f ∈ g.files) (hk : k ∈ g.files)
    (together : k.path ∈ g.circleOf f.path) : g.circleOf k.path = g.circleOf f.path := by
  obtain ⟨j, hj, path, below, above⟩ := (mem_circleOf order hf).mp together
  obtain rfl := order.unique hj hk (by rw [path])
  refine sorted_ext (circleOf_sorted order _) (circleOf_sorted order _) fun p => ?_
  rw [mem_circleOf order hf, mem_circleOf order hk]
  refine exists_congr fun i => and_congr_right fun _ => and_congr_right fun _ => ?_
  exact ⟨fun h => ⟨below.trans h.1, h.2.trans above⟩, fun h => ⟨above.trans h.1, h.2.trans below⟩⟩

/-- The cycles on record for a file: its circle, if it has other members. -/
theorem Linked.cycles (linked : g.Linked) (order : InPathOrder g.files) (hf : f ∈ g.files) :
    f.cycles = if 1 < (g.circleOf f.path).length then [g.circleOf f.path] else [] := by
  have own : (g.issuesOf f).filterMap Issue.members? = [] := by
    refine List.filterMap_eq_nil_iff.mpr fun issue hi => ?_
    have from_include := issuesOf_isLocal order hi
    cases issue with
    | cycle members => cases from_include
    | _ => rfl
  rw [SourceFile.cycles, linked.issues order hf, List.filterMap_append, own, ownershipIssues]
  split <;> split <;> rfl

theorem Linked.no_master_iff (linked : g.Linked) (order : InPathOrder g.files)
    (hf : f ∈ g.files) : .noMaster ∈ f.issues ↔ f.parents ≠ [] ∧ f.masters = [] := by
  have invalid : f.isInvalid = true ↔ f.parents ≠ [] ∧ f.masters = [] := by
    simp [SourceFile.isInvalid]
  rw [linked.issues order hf, List.mem_append, ownershipIssues, ← invalid]
  constructor
  · rintro (own | above)
    · cases issuesOf_isLocal order own
    · rcases List.mem_append.mp above with circle | none_
      · split at circle <;> simp at circle
      · by_contra valid
        rw [if_neg valid] at none_
        cases none_
  · intro invalid
    refine .inr (List.mem_append_right _ ?_)
    rw [if_pos invalid]
    exact List.mem_singleton.mpr rfl

/-- Whether groups of paths are the strongly connected components of the include edges: each
tracked path is in one group, with those that it reaches and that reach it. -/
structure Components (g : FileGraph) (groups : List (List Path)) : Prop where
  all_paths : groups.flatten.Perm g.paths
  connected : ∀ group ∈ groups, ∀ f ∈ g.files, ∀ k ∈ g.files, f.path ∈ group →
    (k.path ∈ group ↔ ReflTransGen g.Edge f k ∧ ReflTransGen g.Edge k f)

/-- The components that are cycles, each in the order of its paths. -/
def componentCycles (groups : List (List Path)) : List (List Path) :=
  (groups.filter (1 < ·.length)).map sortPaths

namespace Components

variable {groups : List (List Path)} (components : g.Components groups)

include components

theorem tracked {group : List Path} (hg : group ∈ groups) (hp : p ∈ group) :
    ∃ k ∈ g.files, k.path = p :=
  List.mem_map.mp (components.all_paths.mem_iff.mp (List.mem_flatten.mpr ⟨group, hg, hp⟩))

variable (order : InPathOrder g.files)

include order

theorem nodup : groups.flatten.Nodup :=
  components.all_paths.nodup_iff.mpr (nodup_of_sorted (paths_sorted order))

variable (hf : f ∈ g.files)

include hf

theorem any_sorted {group : List Path} (hg : group ∈ groups) :
    (sortPaths group).any (· == f.path) = true ↔ f.path ∈ group := by
  rw [List.any_eq_true]
  constructor
  · rintro ⟨p, hp, same⟩
    have mem : p ∈ group := (List.mergeSort_perm group _).mem_iff.mp hp
    obtain ⟨k, hk, rfl⟩ := components.tracked hg mem
    rwa [← order.unique hk hf (Path.beq_iff.mp same)]
  · exact fun mem => ⟨f.path, (List.mergeSort_perm group _).mem_iff.mpr mem,
      Path.beq_iff.mpr rfl⟩

theorem perm_circle {own : List Path} (h_own : own ∈ groups) (mem : f.path ∈ own) :
    own.Perm (g.circleOf f.path) := by
  have once := (List.nodup_flatten.mp (components.nodup order)).1 own h_own
  refine (List.perm_ext_iff_of_nodup once (nodup_of_sorted (circleOf_sorted order _))).mpr
    fun p => ?_
  rw [mem_circleOf order hf]
  constructor
  · intro hp
    obtain ⟨k, hk, rfl⟩ := components.tracked h_own hp
    exact ⟨k, hk, rfl, (components.connected own h_own f hf k hk mem).mp hp⟩
  · rintro ⟨k, hk, rfl, both⟩
    exact (components.connected own h_own f hf k hk mem).mpr both

/-- One component holds a tracked path, and its paths are those of the circle. -/
theorem split : ∃ front own back, groups = front ++ own :: back ∧ own.Perm (g.circleOf f.path) ∧
    f.path ∈ own ∧ f.path ∉ front.flatten ∧ f.path ∉ back.flatten := by
  have distinct := components.nodup order
  obtain ⟨own, h_own, mem⟩ := List.mem_flatten.mp
    (components.all_paths.mem_iff.mpr (List.mem_map_of_mem hf))
  have circle := components.perm_circle order hf h_own mem
  obtain ⟨front, back, rfl⟩ := List.append_of_mem h_own
  refine ⟨front, own, back, rfl, circle, mem, ?_⟩
  rw [List.flatten_append, List.flatten_cons] at distinct
  obtain ⟨-, later, front_away⟩ := List.nodup_append.mp distinct
  obtain ⟨-, -, back_away⟩ := List.nodup_append.mp later
  exact ⟨fun hp => front_away _ hp _ (List.mem_append_left _ mem) rfl,
    fun hp => back_away _ mem _ hp rfl⟩

/-- Of the cycles among the components a file is in its own circle, if that has other members. -/
theorem cycles_through : (componentCycles groups).filter (·.any (· == f.path)) =
    if 1 < (g.circleOf f.path).length then [g.circleOf f.path] else [] := by
  have hits {group : List Path} (hg : group ∈ groups) :
      (sortPaths group).any (· == f.path) = true ↔ f.path ∈ group :=
    components.any_sorted order hf hg
  obtain ⟨front, own, back, rfl, circle, mem, not_front, not_back⟩ := components.split order hf
  have elsewhere {others : List (List Path)}
      (within : ∀ group ∈ others, group ∈ front ++ own :: back)
      (away : f.path ∉ others.flatten) :
      (componentCycles others).filter (·.any (· == f.path)) = [] := by
    refine List.filter_eq_nil_iff.mpr fun sorted hs hit => ?_
    obtain ⟨group, hg, rfl⟩ := List.mem_map.mp hs
    have inside := (List.mem_filter.mp hg).1
    exact away (List.mem_flatten.mpr ⟨group, inside, (hits (within group inside)).mp hit⟩)
  have pieces : componentCycles (front ++ own :: back) =
      componentCycles front ++ componentCycles [own] ++ componentCycles back := by
    rw [← List.singleton_append, ← List.append_assoc]
    simp only [componentCycles, List.filter_append, List.map_append]
  rw [pieces, List.filter_append, List.filter_append,
    elsewhere (fun group hg => by simp [hg]) not_front,
    elsewhere (fun group hg => by simp [hg]) not_back, List.nil_append, List.append_nil,
    ← circle.length_eq]
  by_cases big : 1 < own.length
  · have here_ := (hits (by simp)).mpr mem
    rw [if_pos big, ← sortPaths_eq circle (circleOf_sorted order _)]
    simp [componentCycles, big, here_]
  · simp [componentCycles, big]

end Components

/-- The circle of every file that comes first in its own. -/
def circles (g : FileGraph) : List (List Path) :=
  (g.files.filter fun f => (g.circleOf f.path).head?.any (· == f.path)).map fun f =>
    g.circleOf f.path

theorem mem_circles {group : List Path} (hg : group ∈ g.circles) :
    ∃ f ∈ g.files, group = g.circleOf f.path ∧
      (g.circleOf f.path).head?.any (· == f.path) = true := by
  obtain ⟨f, hf, rfl⟩ := List.mem_map.mp hg
  exact ⟨f, (List.mem_filter.mp hf).1, rfl, (List.mem_filter.mp hf).2⟩

theorem circles_nodup (order : InPathOrder g.files) : g.circles.flatten.Nodup := by
  refine List.nodup_flatten.mpr ⟨fun group hg => ?_, List.pairwise_map.mpr ?_⟩
  · obtain ⟨f, -, rfl, -⟩ := mem_circles hg
    exact nodup_of_sorted (circleOf_sorted order _)
  · refine (order.filter _).imp_of_mem fun {f k} hf hk before p pf pk => ?_
    obtain ⟨hf, first⟩ := List.mem_filter.mp hf
    obtain ⟨hk, first'⟩ := List.mem_filter.mp hk
    obtain ⟨j, hj, rfl, -⟩ := (mem_circleOf order hf).mp pf
    -- Both circles are that of the file they share, so they have the same first member.
    rw [← circleOf_eq order hf hj pf] at first
    rw [← circleOf_eq order hk hj pk] at first'
    obtain ⟨x, head, same⟩ := (Option.any_eq_true _ _).mp first
    obtain ⟨x', head', same'⟩ := (Option.any_eq_true _ _).mp first'
    obtain rfl := Option.some.inj (head.symm.trans head')
    exact Path.before_ne before ((Path.beq_iff.mp same).symm.trans (Path.beq_iff.mp same'))

/-- Every tracked path is in the circle that its own circle begins with. -/
theorem mem_flatten_circles (order : InPathOrder g.files) :
    p ∈ g.circles.flatten ↔ p ∈ g.paths := by
  rw [List.mem_flatten, FileGraph.paths, List.mem_map]
  constructor
  · rintro ⟨group, hg, hp⟩
    obtain ⟨f, hf, rfl, -⟩ := mem_circles hg
    obtain ⟨k, hk, path, -⟩ := (mem_circleOf order hf).mp hp
    exact ⟨k, hk, path⟩
  · rintro ⟨f, hf, rfl⟩
    have own := mem_own_circle order hf
    obtain ⟨x, rest, shape⟩ := List.exists_cons_of_ne_nil (List.ne_nil_of_mem own)
    obtain ⟨k, hk, rfl, -⟩ := (mem_circleOf order hf).mp (shape ▸ List.mem_cons_self)
    have same := circleOf_eq order hf hk (shape ▸ List.mem_cons_self)
    refine ⟨g.circleOf k.path, List.mem_map.mpr ⟨k, List.mem_filter.mpr ⟨hk, ?_⟩, rfl⟩,
      same ▸ own⟩
    rw [same, shape]
    exact Path.beq_iff.mpr rfl

/-- Every graph has components: the circles, each taken once. -/
theorem components_circles (order : InPathOrder g.files) : g.Components g.circles where
  all_paths := (List.perm_ext_iff_of_nodup (circles_nodup order)
    (nodup_of_sorted (paths_sorted order))).mpr fun _ => mem_flatten_circles order
  connected := by
    intro group hg f hf k hk mem
    obtain ⟨j, hj, rfl, -⟩ := mem_circles hg
    rw [← circleOf_eq order hj hf mem, mem_circleOf order hf]
    constructor
    · rintro ⟨i, hi, path, both⟩
      rwa [← order.unique hi hk (by rw [path])]
    · exact fun both => ⟨k, hk, rfl, both⟩

/-- Who a tracked file is owned by, and what its issues say about it. -/
structure HasOwners (g : FileGraph) (f : SourceFile) : Prop where
  parents : ∀ p, p ∈ f.parents ↔ ∃ k ∈ g.files, k.path = p ∧ k.Includes f.path
  masters : ∀ p, p ∈ f.masters ↔
    ∃ m ∈ g.files, m.path = p ∧ m.parents = [] ∧ ReflTransGen g.Edge m f
  sorted : (f.parents.Pairwise fun p q => p.before q = true) ∧
    f.masters.Pairwise fun p q => p.before q = true
  families : ∀ m ∈ g.files, m.parents = [] → (m.path ∈ f.masters ↔ f.path ∈ g.family m.path)
  master : f.parents = [] → f.masters = [f.path]
  no_master : .noMaster ∈ f.issues ↔ f.parents ≠ [] ∧ f.masters = []
  on_cycle : TransGen g.Edge f f → ∃ members, f.cycles = [members] ∧ 3 ≤ members.length ∧
    (members.Pairwise fun p q => p.before q = true) ∧
    ∀ p, p ∈ members ↔
      ∃ k ∈ g.files, k.path = p ∧ ReflTransGen g.Edge f k ∧ ReflTransGen g.Edge k f
  off_cycle : ¬ TransGen g.Edge f f → f.cycles = []
  components : ∀ groups, g.Components groups →
    f.cycles = (componentCycles groups).filter (·.any (· == f.path))

/-- In a graph that was just read, ownership is reachability, whatever cycles there are: a file's
parents are the files that include it, and its masters the files without parents that reach it. It
is a member of one cycle on record, of at least three files, if it reaches itself, and otherwise of
none; the cycles are the strongly connected components with more than one file. -/
theorem JustRead.hasOwners (read : g.JustRead) : ∀ f ∈ g.files, g.HasOwners f := by
  obtain ⟨order, linked⟩ := read.linked
  intro f hf
  have masters (p : Path) := linked.mem_masters_iff order (p := p) hf
  have cycles := linked.cycles order hf
  have sorted : (f.parents.Pairwise fun p q => p.before q = true) ∧
      f.masters.Pairwise fun p q => p.before q = true := by
    rw [(linked.records hf).2.1, (linked.records hf).2.2]
    exact ⟨List.pairwise_map.mpr (order.filter _), List.pairwise_map.mpr (order.filter _)⟩
  refine ⟨fun p => linked.mem_parents hf, masters, sorted, ?_, ?_, linked.no_master_iff order hf,
    ?_, ?_, fun groups components => ?_⟩
  · intro m hm none_
    rw [masters, family, mem_reach_iff order hm hf]
    constructor
    · rintro ⟨k, hk, path, -, way⟩
      rwa [← order.unique hk hm (by rw [path])]
    · exact fun way => ⟨m, hm, rfl, none_, way⟩
  · intro none_
    refine sorted_ext sorted.2 (List.pairwise_singleton _ _) fun p => ?_
    rw [masters, List.mem_singleton]
    constructor
    · rintro ⟨m, hm, rfl, -, way⟩
      rw [linked.reaches_master hf none_ way]
    · rintro rfl
      exact ⟨f, hf, rfl, none_, .refl⟩
  · intro around
    have three := linked.three_on_cycle order hf around
    rw [if_pos (by omega)] at cycles
    exact ⟨_, cycles, three, circleOf_sorted order _, fun p => mem_circleOf order hf⟩
  · intro straight
    rw [cycles, circleOf_alone order hf straight]
    rfl
  · rw [cycles, components.cycles_through order hf]

/-- A master that includes one file of a cycle, and a cycle that no master is above. -/
def ringedGraph : FileGraph where
  root := .ofText "/story"
  options := { extension := "ink" }
  files := [{ path := .ofText "a.ink", rawIncludes := ["b.ink"] },
    { path := .ofText "b.ink", rawIncludes := ["c.ink"] }, { path := .ofText "c.ink" },
    { path := .ofText "main.ink", rawIncludes := ["b.ink"] },
    { path := .ofText "x.ink", rawIncludes := ["y.ink"] },
    { path := .ofText "y.ink", rawIncludes := ["z.ink"] },
    { path := .ofText "z.ink", rawIncludes := ["x.ink"] }]

/-- The file that closes the first cycle. -/
def ringDisk : MemoryDisk :=
  MemoryDisk.empty.addFile (.ofText "/story/c.ink") "INCLUDE a.ink\n".toUTF8

theorem ringed_hasOwners :
    let new := (ringedGraph.refresh ringDisk (.ofText "c.ink")).2.graph
    new.files.map (fun f => (f.path.text, f.masters.map Path.text, f.issues.map Issue.message)) =
      [("a.ink", ["main.ink"], ["include cycle: a.ink -> b.ink -> c.ink"]),
        ("b.ink", ["main.ink"], ["include cycle: a.ink -> b.ink -> c.ink"]),
        ("c.ink", ["main.ink"], ["include cycle: a.ink -> b.ink -> c.ink"]),
        ("main.ink", ["main.ink"], []),
        ("x.ink", [], ["include cycle: x.ink -> y.ink -> z.ink",
          "file is included but no master file owns it"]),
        ("y.ink", [], ["include cycle: x.ink -> y.ink -> z.ink",
          "file is included but no master file owns it"]),
        ("z.ink", [], ["include cycle: x.ink -> y.ink -> z.ink",
          "file is included but no master file owns it"])] ∧
      new.circles.map (·.map Path.text) =
        [["a.ink", "b.ink", "c.ink"], ["main.ink"], ["x.ink", "y.ink", "z.ink"]] ∧
      new.Components new.circles ∧ ∀ f ∈ new.files, new.HasOwners f := by
  have order : InPathOrder ringedGraph.files := by
    unfold InPathOrder
    decide +kernel
  have read : JustRead (ringedGraph.refresh ringDisk (.ofText "c.ink")).2.graph :=
    .refreshed order (by decide +kernel)
  exact ⟨by decide +kernel, by decide +kernel, components_circles read.linked.1, read.hasOwners⟩

end FileGraph

end StoryBuild
