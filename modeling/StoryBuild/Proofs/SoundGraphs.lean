import StoryBuild.Proofs.DeskFacts
import StoryBuild.Proofs.Owners

namespace StoryBuild

namespace FileGraph

variable {g new : FileGraph} {f k : SourceFile} {m q : Path}

/-- What the records of a graph have to do with each other. -/
structure Sound (g : FileGraph) : Prop where
  order : InPathOrder g.files
  on_top : ∀ f ∈ g.files, f.parents = [] → ∀ k ∈ g.files, ¬ k.Includes f.path
  sorted : ∀ f ∈ g.files, f.masters.Pairwise fun p q => p.before q = true

theorem Linked.sound (linked : g.Linked) (order : InPathOrder g.files) : g.Sound := by
  refine ⟨order, fun f hf none_ k hk includes => ?_, fun f hf => ?_⟩
  · have parent := (linked.mem_parents hf).mpr ⟨k, hk, rfl, includes⟩
    rw [none_] at parent
    cases parent
  · rw [(linked.records hf).2.2]
    exact List.pairwise_map.mpr (order.filter _)

theorem Sound.filter (h : g.Sound) (keep : SourceFile → Bool) :
    ({ g with files := g.files.filter keep } : FileGraph).Sound := by
  have old {f : SourceFile} (hf : f ∈ g.files.filter keep) : f ∈ g.files :=
    (List.mem_filter.mp hf).1
  exact ⟨h.order.filter keep, fun f hf none_ k hk => h.on_top f (old hf) none_ k (old hk),
    fun f hf => h.sorted f (old hf)⟩

theorem Sound.of_linkage (h : g.Sound)
    (links : new.mapFiles SourceFile.linkage = g.mapFiles SourceFile.linkage) : new.Sound := by
  refine ⟨inPathOrder_of_linkage h.order links, fun f hf none_ k hk includes => ?_,
    fun f hf => ?_⟩
  · obtain ⟨f', hf', same⟩ := mem_of_view links hf
    obtain ⟨k', hk', same'⟩ := mem_of_view links hk
    have parents : f'.parents = f.parents := (congrArg SourceFile.parents same :)
    have path : f'.path = f.path := (congrArg SourceFile.path same :)
    have out : k'.includes = k.includes := (congrArg SourceFile.includes same' :)
    refine h.on_top f' hf' (parents.trans none_) k' hk' ?_
    rwa [SourceFile.Includes, out, path]
  · obtain ⟨f', hf', same⟩ := mem_of_view links hf
    have masters : f'.masters = f.masters := (congrArg SourceFile.masters same :)
    rw [← masters]
    exact h.sorted f' hf'

section Rereading

variable {σ : Type} [Storage σ]

theorem Sound.refresh (h : g.Sound) (s : σ) (p : Path) : (g.refresh s p).2.graph.Sound := by
  have order := refresh_inPathOrder h.order s p
  unfold FileGraph.refresh at order ⊢
  cases read : g.reread s p with
  | none => exact h
  | some state =>
    rw [read] at order
    exact (linked_relink state.1).sound order

/-- A rebuild that fails only forgets files, and one that succeeds links all that it finds. -/
theorem Sound.rebuild (h : g.Sound) (s : σ) : (g.rebuild s).2.graph.Sound := by
  have order := rebuild_inPathOrder h.order s
  unfold FileGraph.rebuild at order ⊢
  dsimp only at order ⊢
  split
  next => exact h.filter _
  next found discovered =>
    rw [discovered] at order
    exact (linked_relink _).sound order

end Rereading

/-- What another path leads to is included by a tracked file. -/
theorem Leads.includer (leads : g.Leads SourceFile.includes [] q k) :
    g.file? q = some k ∨ ∃ j ∈ g.files, j.Includes k.path := by
  induction leads with
  | here _ found => exact .inl found
  | @there p q first k _ found edge _ ih =>
    rcases ih with target | included
    · exact .inr ⟨first, (file_found found).1, q, edge, (file_found target).2.symm⟩
    · exact .inr included

/-- A file without parents is in its own family only. -/
theorem Sound.alone (h : g.Sound) (master : g.isMaster m = true) (other : q.parts ≠ m.parts) :
    (g.family q).any (· == m) = false := by
  rw [Bool.eq_false_iff]
  intro inside
  obtain ⟨x, hx, same⟩ := List.any_eq_true.mp inside
  obtain ⟨f, leads, rfl⟩ := mem_reach.mp hx
  obtain ⟨k, found, none_⟩ := (Option.any_eq_true _ _).mp master
  obtain ⟨hk, path⟩ := file_found found
  obtain rfl := h.order.unique leads.mem hk ((Path.beq_iff.mp same).trans path.symm)
  rcases leads.includer with start | ⟨j, hj, includes⟩
  · exact other ((file_found start).2.symm.trans path)
  · exact h.on_top f hk (List.isEmpty_iff.mp none_) j hj includes

end FileGraph

namespace Engine

variable {σ : Type} [Workshop σ]

theorem act_sound {e : Engine σ} (a : Act σ) (h : e.graph.Sound) : (e.act a).graph.Sound := by
  have looked : (e.look a).graph.Sound :=
    look_graph (P := FileGraph.Sound) (fun p _ => h.refresh e.site p) (h.rebuild e.site) h
  exact looked.of_linkage (Desk.course_links (act_course Rules.free_lenient (e.allows_free a)))

theorem run_sound_graph (acts : List (Act σ)) {e : Engine σ} (h : e.graph.Sound) :
    (e.run acts).graph.Sound :=
  run_preserves (P := (·.graph.Sound)) (fun a _ _ => act_sound a) h

end Engine

end StoryBuild
