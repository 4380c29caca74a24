import StoryBuild.Proofs.Owners

namespace StoryBuild.FileGraph

variable {g : FileGraph} {f k : SourceFile} {p t : Path}

/-- Whether both ends of every link are there: the files that are included are tracked, and the
parents of a file include it. -/
structure HoldsTogether (g : FileGraph) : Prop where
  targets : ∀ f ∈ g.files, ∀ t ∈ f.includes, g.isTracked t = true
  parents : ∀ f ∈ g.files, ∀ p ∈ f.parents,
    ∃ k ∈ g.files, k.path.parts = p.parts ∧ k.Includes f.path

theorem Linked.target_tracked (linked : g.Linked) (order : InPathOrder g.files) (hf : f ∈ g.files)
    (ht : t ∈ f.includes) : ∃ k ∈ g.files, k.path.parts = t.parts ∧ f.Includes k.path := by
  have includes : f.Includes t := ⟨t, ht, rfl⟩
  obtain ⟨raw, -, x, ⟨-, -, k, hk, path, -⟩, same⟩ := (linked.includes_iff order hf).mp includes
  exact ⟨k, hk, path.trans same, t, ht, (path.trans same).symm⟩

theorem Linked.holdsTogether (linked : g.Linked) (order : InPathOrder g.files) :
    g.HoldsTogether where
  targets f hf t ht := by
    obtain ⟨k, hk, path, -⟩ := linked.target_tracked order hf ht
    exact isTracked_iff.mpr ⟨k, hk, path⟩
  parents f hf p hp := by
    obtain ⟨k, hk, rfl, includes⟩ := (linked.mem_parents hf).mp hp
    exact ⟨k, hk, rfl, includes⟩

section Prune

variable {σ : Type} [Storage σ] {s : σ}

/-- Whether a tracked file is on the disk. -/
def isPresent (g : FileGraph) (s : σ) (f : SourceFile) : Bool :=
  Storage.isFile s (g.absolute f.path)

theorem mem_prune : f ∈ (g.prune s).files ↔ f ∈ g.files ∧ g.isPresent s f = true :=
  List.mem_filter

theorem prune_eq_self : g.prune s = g ↔ ∀ f ∈ g.files, g.isPresent s f = true :=
  Iff.trans ⟨congrArg FileGraph.files, congrArg (FileGraph.mk g.root g.options)⟩
    List.filter_eq_self

/-- Links keep both ends if no file is forgotten without those that it shares a link with. -/
theorem Linked.prune_holdsTogether (linked : g.Linked) (order : InPathOrder g.files) :
    (g.prune s).HoldsTogether ↔
      ∀ f ∈ g.files, ∀ k ∈ g.files, f.Includes k.path → g.isPresent s f = g.isPresent s k := by
  constructor
  · intro whole f hf k hk includes
    refine Bool.eq_iff_iff.mpr ⟨fun present => ?_, fun present => ?_⟩
    · obtain ⟨t, ht, same⟩ := includes
      have tracked := whole.targets f (mem_prune.mpr ⟨hf, present⟩) t ht
      obtain ⟨j, hj, path⟩ := isTracked_iff.mp tracked
      obtain ⟨hj, there⟩ := mem_prune.mp hj
      rwa [order.unique hj hk (path.trans same)] at there
    · have parent := (linked.mem_parents hk).mpr ⟨f, hf, rfl, includes⟩
      obtain ⟨j, hj, path, -⟩ := whole.parents k (mem_prune.mpr ⟨hk, present⟩) f.path parent
      obtain ⟨hj, there⟩ := mem_prune.mp hj
      rwa [order.unique hj hf path] at there
  · intro together
    refine ⟨fun f hf t ht => ?_, fun f hf p hp => ?_⟩
    · obtain ⟨hf, present⟩ := mem_prune.mp hf
      obtain ⟨k, hk, path, includes⟩ := linked.target_tracked order hf ht
      rw [together f hf k hk includes] at present
      exact isTracked_iff.mpr ⟨k, mem_prune.mpr ⟨hk, present⟩, path⟩
    · obtain ⟨hf, present⟩ := mem_prune.mp hf
      obtain ⟨k, hk, rfl, includes⟩ := (linked.mem_parents hf).mp hp
      rw [← together k hk f hf includes] at present
      exact ⟨k, mem_prune.mpr ⟨hk, present⟩, rfl, includes⟩

theorem rebuild_of_failed {cause : IoError} (failed : (g.rebuild s).1 = some cause) :
    (g.rebuild s).2 = ⟨g.prune s, s, []⟩ := by
  unfold rebuild at failed ⊢
  dsimp only at failed ⊢
  split
  next => rfl
  next read =>
    rw [read] at failed
    cases failed

/-- A rebuild that fails forgets exactly the files that are gone from the disk, and keeps the other
records and the storage. So it leaves the graph as it was exactly if no file is gone. A graph that
was linked still holds together exactly if no file that is gone includes one that is not, or is
included by it. -/
theorem failed_rebuild {cause : IoError} (order : InPathOrder g.files) (linked : g.Linked)
    (failed : (g.rebuild s).1 = some cause) :
    (∀ f, f ∈ (g.rebuild s).2.graph.files ↔ f ∈ g.files ∧ g.isPresent s f = true) ∧
      InPathOrder (g.rebuild s).2.graph.files ∧ (g.rebuild s).2.storage = s ∧
      ((g.rebuild s).2.graph = g ↔ ∀ f ∈ g.files, g.isPresent s f = true) ∧
      g.HoldsTogether ∧
      ((g.rebuild s).2.graph.HoldsTogether ↔
        ∀ f ∈ g.files, ∀ k ∈ g.files, f.Includes k.path →
          g.isPresent s f = g.isPresent s k) := by
  rw [rebuild_of_failed failed]
  exact ⟨fun f => mem_prune, order.filter _, rfl, prune_eq_self, linked.holdsTogether order,
    linked.prune_holdsTogether order⟩

end Prune

/-- A story with a part. -/
def partedStory : FileGraph :=
  relink
    { root := .ofText "/story"
      options := { extension := "ink" }
      files := [{ path := .ofText "main.ink", rawIncludes := ["part.ink"] },
        { path := .ofText "part.ink" }] }

/-- The disk of that story after the part and the directory of the project were deleted. -/
def rootlessDisk : MemoryDisk :=
  (((MemoryDisk.empty.addFile (.ofText "/story/main.ink") "INCLUDE part.ink\n".toUTF8).addFile
    (.ofText "/story/part.ink") .empty).remove (.ofText "/story/part.ink")).remove
      (.ofText "/story")

/-- The part is forgotten, and the story still includes it. -/
theorem failed_rebuild_cuts_link :
    let after := (partedStory.rebuild rootlessDisk).2.graph
    after.files.map (fun f => (f.path.text, f.includes.map Path.text)) =
        [("main.ink", ["part.ink"])] ∧
      partedStory.HoldsTogether ∧ ¬ after.HoldsTogether ∧ after ≠ partedStory := by
  intro after
  have order : InPathOrder partedStory.files := by
    unfold InPathOrder
    decide +kernel
  have failed : (partedStory.rebuild rootlessDisk).1 = some (.notListable (.ofText "/story")) := rfl
  obtain ⟨-, -, -, same_iff, whole, whole_iff⟩ := failed_rebuild order (linked_relink _) failed
  have cut : (partedStory.files.any fun f => partedStory.files.any fun k =>
      f.includes.any (· == k.path) && partedStory.isPresent rootlessDisk f &&
        !partedStory.isPresent rootlessDisk k) = true := by decide +kernel
  obtain ⟨f, hf, cut⟩ := List.any_eq_true.mp cut
  obtain ⟨k, hk, cut⟩ := List.any_eq_true.mp cut
  simp only [Bool.and_eq_true, Bool.not_eq_true'] at cut
  obtain ⟨⟨includes, present⟩, gone⟩ := cut
  obtain ⟨t, ht, same⟩ := List.any_eq_true.mp includes
  refine ⟨by decide +kernel, whole, fun h => ?_, fun h => ?_⟩
  · have alike := whole_iff.mp h f hf k hk ⟨t, ht, Path.beq_iff.mp same⟩
    rw [present, gone] at alike
    cases alike
  · rw [same_iff.mp h k hk] at gone
    cases gone

end StoryBuild.FileGraph
