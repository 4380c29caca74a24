import StoryBuild.Proofs.Acting
import StoryBuild.Proofs.BatchRecord
import StoryBuild.Proofs.JobTraces
import StoryBuild.Proofs.WaitingList

namespace StoryBuild

namespace Desk

variable {σ : Type}

/-- What scheduling keeps of a desk. -/
structure Sane (d : Desk σ) : Prop where
  kept : d.core.Kept
  traced : d.core.Traced
  valid : d.pending.Valid

theorem Sane.queued_mem {d : Desk σ} (h : d.Sane) {j : Job} (hj : j ∈ d.jobs) :
    .queued j.id j.path ∈ d.trace :=
  (List.mem_filter.mp (h.traced.queued j hj)).1

theorem Sane.not_started {d : Desk σ} (h : d.Sane) {j : Job} (hj : j ∈ d.jobs)
    (waits : j.isQueued = true) : .started j.id ∉ d.trace :=
  fun hs => h.traced.unstarted j hj waits (List.mem_filter.mpr ⟨hs, rfl⟩)

theorem Sane.job_eq {d : Desk σ} (h : d.Sane) {j k : Job} (hj : j ∈ d.jobs) (hk : k ∈ d.jobs)
    (same : j.id = k.id) : j = k :=
  h.kept.ordered.job_eq hj hk same

variable [Workshop σ] {R : Rules} {c d : Desk σ}

theorem step_sane (step : Step R c d) (h : c.Sane) : d.Sane := by
  have books : d.core.Kept ∧ d.core.Traced := by
    refine Core.steps_preserve (P := fun c => c.Kept ∧ c.Traced) ?_ (step_core step)
      ⟨h.kept, h.traced⟩
    intro a b one hab
    exact ⟨Core.step_kept one hab.1, Core.step_traced one hab.1.ordered hab.2⟩
  refine ⟨books.1, books.2, ?_⟩
  cases step with
  | queue => exact h.valid.remove _
  | drain =>
    rename_i e may
    obtain ⟨deeds, graph, site, -, -, -, same⟩ := e.applyBatch_desk .due true
    rw [same]
    exact h.valid
  | park => exact h.valid.push _
  | take => exact Pending.valid_empty
  | putBack => exact h.valid.push _
  | _ => exact h.valid

/-- Within a call no link of the graph changes. -/
theorem step_links (step : Step R c d) :
    d.graph.mapFiles SourceFile.linkage = c.graph.mapFiles SourceFile.linkage := by
  cases step with
  | drain =>
    rename_i e may
    obtain ⟨deeds, graph, site, -, -, links, same⟩ := e.applyBatch_desk .due true
    rw [same]
    exact links
  | _ => rfl

theorem step_isMaster (step : Step R c d) (p : Path) : d.graph.isMaster p = c.graph.isMaster p :=
  FileGraph.isMaster_of_linkage (step_links step) p

theorem step_options (step : Step R c d) : d.options = c.options := by
  cases step with
  | drain =>
    rename_i e may
    obtain ⟨deeds, graph, site, -, -, -, same⟩ := e.applyBatch_desk .due true
    rw [same]
    rfl
  | _ => rfl

theorem step_grows (step : Step R c d) : c.trace <:+ d.trace := by
  cases step with
  | tell | save | refuse | queue | collect | fire | abandon | restrict | edit | take | turn =>
    exact List.suffix_cons _ _
  | start | drop => exact List.suffix_append _ _
  | drain =>
    rename_i e may
    obtain ⟨deeds, graph, site, -, -, -, same⟩ := e.applyBatch_desk .due true
    rw [same]
    exact (List.suffix_append _ _).trans (List.suffix_cons _ _)
  | _ => exact List.suffix_refl _

/-- A job keeps its identity, its master and its output as long as it is active or given up. -/
theorem step_everyJob {P : Nat → Path → Path → Prop} (step : Step R c d)
    (new : ∀ master, R.queue c.core → c.graph.isMaster master = true →
      d.trace = .queued c.nextId master :: c.trace →
        P c.nextId master (c.newJob master false).output)
    (old : ∀ j, j ∈ c.jobs ∨ j ∈ c.abandoned → P j.id j.path j.output) :
    ∀ j, j ∈ d.jobs ∨ j ∈ d.abandoned → P j.id j.path j.output := by
  intro j hj
  cases step with
  | queue master immediate may is_master =>
    rcases hj with hj | hj
    · rcases List.mem_append.mp hj with hj | hj
      · exact old j (.inl hj)
      · rw [List.mem_singleton.mp hj]
        exact new master may is_master rfl
    · exact old j (.inr hj)
  | start k now wall | finish id k o now =>
    rcases hj with hj | hj
    · obtain ⟨x, hx, rfl⟩ := List.mem_map.mp hj
      split
      next => exact old x (.inl hx)
      next => exact old x (.inl hx)
    · exact old j (.inr hj)
  | abandon k given found id path output =>
    rcases hj with hj | hj
    · exact old j (.inl (List.mem_filter.mp hj).1)
    · rcases List.mem_append.mp hj with hj | hj
      · exact old j (.inr hj)
      · rw [List.mem_singleton.mp hj, id, path, output]
        exact old k (.inl (List.mem_of_find?_eq_some found))
  | @drain e =>
    obtain ⟨deeds, graph, site, -, -, -, same⟩ := e.applyBatch_desk .due true
    rw [same] at hj
    simp at hj
  | drop => exact old j (hj.imp_left fun hj => (List.mem_filter.mp hj).1)
  | _ => exact old j hj

theorem course_grows (course : Course R c d) : c.trace <:+ d.trace := by
  induction course with
  | refl => exact List.suffix_refl _
  | tail _ step ih => exact ih.trans (step_grows step)

theorem course_links (course : Course R c d) :
    d.graph.mapFiles SourceFile.linkage = c.graph.mapFiles SourceFile.linkage := by
  induction course with
  | refl => rfl
  | tail _ step ih => exact (step_links step).trans ih

theorem course_isMaster (course : Course R c d) (p : Path) :
    d.graph.isMaster p = c.graph.isMaster p :=
  FileGraph.isMaster_of_linkage (course_links course) p

theorem course_options (course : Course R c d) : d.options = c.options := by
  induction course with
  | refl => rfl
  | tail _ step ih => exact (step_options step).trans ih

theorem course_sane (course : Course R c d) (h : c.Sane) : d.Sane :=
  course_preserves step_sane course h

end Desk

namespace Engine

variable {σ : Type} [Workshop σ]

theorem look_core (e : Engine σ) (a : Act σ) : (e.look a).core = e.core := by
  obtain ⟨graph, site, events, quiet, same⟩ := e.look_desk .steady a
  have silent : events.filter Event.isStory = [] := by
    refine List.filter_eq_nil_iff.mpr fun event hevent => ?_
    have := quiet event hevent
    cases event <;> simp_all [Event.isQuiet, Event.isStory]
  have cores : ((e.look a).desk .steady true).core = (e.desk .steady true).core := by
    rw [same]
    simp only [Desk.core, List.filter_append, silent]
    rfl
  exact cores

/-- What refreshing and rebuilding a graph keeps, every look keeps. -/
theorem look_graph {P : FileGraph → Prop} {e : Engine σ} {a : Act σ}
    (refreshed : ∀ p, a = .sourceChanged p → P (e.graph.refresh e.site p).2.graph)
    (rebuilt : P (e.graph.rebuild e.site).2.graph) (h : P e.graph) : P (e.look a).graph := by
  have rebuilt' : P e.rebuildGraph.2.graph := by
    unfold rebuildGraph
    split
    next => exact h
    next => dsimp only; split <;> exact rebuilt
  cases a with
  | sourceChanged p => exact refreshed p rfl
  | compileAll force =>
    unfold look targets
    dsimp only
    split <;> exact h
  | rebuildGraph => exact rebuilt'
  | rebuildIfRequired =>
    unfold look rebuildIfRequired
    dsimp only
    split
    next => split <;> simp_all
    next => exact h
  | _ => exact h

theorem look_grows (e : Engine σ) (a : Act σ) : e.trace <:+ (e.look a).trace := by
  obtain ⟨graph, site, events, -, same⟩ := e.look_desk .steady a
  rw [show (e.look a).trace = events ++ e.trace from congrArg Desk.trace same]
  exact List.suffix_append _ _

theorem look_sane {e : Engine σ} (h : (e.desk .steady true).Sane) (a : Act σ) :
    ((e.look a).desk .steady true).Sane := by
  obtain ⟨graph, site, events, -, same⟩ := e.look_desk .steady a
  have core : ((e.look a).desk .steady true).core = (e.desk .steady true).core := e.look_core a
  refine ⟨core ▸ h.kept, core ▸ h.traced, ?_⟩
  rw [same]
  exact h.valid

theorem allows_free (e : Engine σ) (a : Act σ) : e.Allows Rules.free a :=
  allows_of (fun _ _ => trivial) fun _ => trivial

theorem act_grows (e : Engine σ) (a : Act σ) : e.trace <:+ (e.act a).trace :=
  (e.look_grows a).trans (Desk.course_grows (act_course Rules.free_lenient (e.allows_free a)))

theorem act_options (e : Engine σ) (a : Act σ) : (e.act a).options = e.options := by
  obtain ⟨graph, site, events, -, same⟩ := e.look_desk .steady a
  have looked : (e.look a).options = e.options := congrArg Desk.options same
  exact (Desk.course_options (act_course Rules.free_lenient (e.allows_free a))).trans looked

theorem act_sane {e : Engine σ} (h : (e.desk .steady true).Sane) (a : Act σ) :
    ((e.act a).desk .steady true).Sane :=
  Desk.course_sane (act_course Rules.free_lenient (e.allows_free a)) (look_sane h a)

omit [Workshop σ] in
theorem fresh_sane (graph : FileGraph) (options : EngineOptions) (site : σ) (dawn : Nat) :
    ((fresh graph options site dawn).desk .steady true).Sane :=
  ⟨fresh_kept graph options site dawn, fresh_traced graph options site dawn, Pending.valid_empty⟩

theorem run_grows (e : Engine σ) (acts : List (Act σ)) : e.trace <:+ (e.run acts).trace := by
  refine run_preserves (P := (e.trace <:+ ·.trace)) (fun a _ e' h => ?_) (List.suffix_refl _)
  exact h.trans (e'.act_grows a)

theorem run_options (e : Engine σ) (acts : List (Act σ)) : (e.run acts).options = e.options := by
  refine run_preserves (P := (·.options = e.options)) (fun a _ e' h => ?_) rfl
  exact (e'.act_options a).trans h

theorem run_sane {e : Engine σ} (h : (e.desk .steady true).Sane) (acts : List (Act σ)) :
    ((e.run acts).desk .steady true).Sane :=
  run_preserves (P := fun e => (e.desk .steady true).Sane) (fun a _ _ h => act_sane h a) h

end Engine

end StoryBuild
