import StoryBuild.Graph.Basic
import StoryBuild.Proofs.PathParts

namespace StoryBuild

instance : Std.TransOrd Part :=
  inferInstanceAs (Std.TransCmp (compareLex (compareOn Part.rank) (compareOn Part.label)))

instance : Std.LawfulEqOrd Part where
  compare_self := Std.ReflCmp.compare_self
  eq_of_compare := by
    intro a b h
    change (compare a.rank b.rank).then (compare a.label b.label) = .eq at h
    rw [Ordering.then_eq_eq] at h
    have rank := Std.LawfulEqCmp.eq_of_compare h.1
    have label := Std.LawfulEqCmp.eq_of_compare h.2
    cases a <;> cases b <;> simp_all [Part.rank, Part.label]

namespace Path

theorem before_iff {p q : Path} : p.before q = true ↔ compare p.parts q.parts = .lt := by
  change (compare p.parts q.parts).isLT = true ↔ _
  cases compare p.parts q.parts <;> simp

theorem before_irrefl (p : Path) : p.before p = false := by
  rw [Bool.eq_false_iff, ne_eq, before_iff]
  simp [Std.ReflOrd.compare_self]

theorem before_trans {p q r : Path} (h : p.before q = true) (h' : q.before r = true) :
    p.before r = true := by
  rw [before_iff] at h h' ⊢
  exact Std.TransCmp.lt_trans h h'

theorem before_asymm {p q : Path} (h : p.before q = true) : q.before p = false := by
  rw [Bool.eq_false_iff]
  intro back
  have := before_trans h back
  rw [before_irrefl] at this
  cases this

theorem before_ne {p q : Path} (h : p.before q = true) : p.parts ≠ q.parts := by
  intro same
  rw [before_iff, same] at h
  simp [Std.ReflOrd.compare_self] at h

/-- Of two paths with other parts one is before the other. -/
theorem before_total {p q : Path} (h : p.before q = false) (other : p.parts ≠ q.parts) :
    q.before p = true := by
  rw [Bool.eq_false_iff, ne_eq, before_iff] at h
  rw [before_iff]
  cases found : compare p.parts q.parts with
  | lt => exact absurd found h
  | eq => exact absurd (Std.LawfulEqCmp.eq_of_compare found) other
  | gt => exact Std.OrientedCmp.gt_iff_lt.mp found

end Path

/-- Files in the order of their paths, no path twice. -/
def InPathOrder (files : List SourceFile) : Prop :=
  files.Pairwise fun a b => a.path.before b.path = true

namespace InPathOrder

variable {files : List SourceFile}

/-- Files in order are known by what they are. -/
theorem ext {others : List SourceFile} (h : InPathOrder files) (h' : InPathOrder others)
    (same : ∀ f, f ∈ files ↔ f ∈ others) : files = others := by
  have nodup (l : List SourceFile) (order : InPathOrder l) : l.Nodup := by
    refine List.Pairwise.imp ?_ order
    intro a b before same
    exact Path.before_ne before (by rw [same])
  have perm := (List.perm_ext_iff_of_nodup (nodup files h) (nodup others h')).mpr same
  refine perm.eq_of_pairwise (fun a b _ _ before after => ?_) h h'
  rw [Path.before_asymm before] at after
  cases after

/-- A path has one file. -/
theorem unique {f g : SourceFile} (h : InPathOrder files) (hf : f ∈ files) (hg : g ∈ files)
    (same : f.path.parts = g.path.parts) : f = g := by
  induction files with
  | nil => simp at hf
  | cons k rest ih =>
    obtain ⟨behind, order⟩ := List.pairwise_cons.mp h
    rcases List.mem_cons.mp hf with rfl | hf
    · rcases List.mem_cons.mp hg with rfl | hg
      · rfl
      · exact absurd same (Path.before_ne (behind g hg))
    · rcases List.mem_cons.mp hg with first | hg
      · rw [first] at same
        exact absurd same.symm (Path.before_ne (behind f hf))
      · exact ih order hf hg

theorem filter (h : InPathOrder files) (keep : SourceFile → Bool) :
    InPathOrder (files.filter keep) :=
  h.sublist List.filter_sublist

theorem map (h : InPathOrder files) {change : SourceFile → SourceFile}
    (path : ∀ f, (change f).path = f.path) : InPathOrder (files.map change) := by
  rw [InPathOrder, List.pairwise_map]
  refine List.Pairwise.imp ?_ h
  intro a b before
  rw [path, path]
  exact before

end InPathOrder

namespace FileGraph

/-- A file with a new path is added. -/
theorem mem_insertByPath {f : SourceFile} {files : List SourceFile}
    (new : ∀ k ∈ files, k.path.parts ≠ f.path.parts) (x : SourceFile) :
    x ∈ insertByPath f files ↔ x = f ∨ x ∈ files := by
  induction files with
  | nil => simp [insertByPath]
  | cons k rest ih =>
    have other : (f.path == k.path) = false :=
      Path.beq_false_iff.mpr (Ne.symm (new k (by simp)))
    unfold insertByPath
    rw [if_neg (by simp [other])]
    split
    next => simp
    next =>
      rw [List.mem_cons, ih fun k hk => new k (List.mem_cons_of_mem _ hk), List.mem_cons]
      exact or_left_comm

theorem insertByPath_order {f : SourceFile} {files : List SourceFile} (h : InPathOrder files)
    (new : ∀ k ∈ files, k.path.parts ≠ f.path.parts) : InPathOrder (insertByPath f files) := by
  induction files with
  | nil => exact List.pairwise_singleton _ _
  | cons k rest ih =>
    obtain ⟨behind, order⟩ := List.pairwise_cons.mp h
    have other := new k (by simp)
    have rest_new : ∀ k ∈ rest, k.path.parts ≠ f.path.parts :=
      fun k hk => new k (List.mem_cons_of_mem _ hk)
    unfold insertByPath
    rw [if_neg (by simp [Path.beq_false_iff.mpr (Ne.symm other)])]
    split
    next before =>
      refine List.pairwise_cons.mpr ⟨?_, h⟩
      intro x hx
      rcases List.mem_cons.mp hx with rfl | hx
      · exact before
      · exact Path.before_trans before (behind x hx)
    next after =>
      refine List.pairwise_cons.mpr ⟨?_, ih order rest_new⟩
      intro x hx
      rcases (mem_insertByPath rest_new x).mp hx with rfl | hx
      · exact Path.before_total (by simpa using after) (Ne.symm other)
      · exact behind x hx

end FileGraph

end StoryBuild
