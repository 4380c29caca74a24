import StoryBuild.Proofs.DeskFacts

namespace StoryBuild

/-- The events after which waiting masters are taken up. -/
def Event.opensPromotion : Event → Bool
  | .drained _ _ => true
  | .mode .editing => true
  | _ => false

/-- An event of some kind has come since a trace. -/
def Since (before : List Event) (kind : Event → Bool) (trace : List Event) : Prop :=
  ∃ since, trace = since ++ before ∧ ∃ event ∈ since, kind event = true

theorem Since.later {before trace now : List Event} {kind : Event → Bool}
    (h : Since before kind trace) (grown : trace <:+ now) : Since before kind now := by
  obtain ⟨since, rfl, event, mem, of_kind⟩ := h
  obtain ⟨events, rfl⟩ := grown
  exact ⟨events ++ since, (List.append_assoc ..).symm, event, List.mem_append_right _ mem, of_kind⟩

/-- Since a trace the waiting masters were about to be taken up. -/
def Opened (before trace : List Event) : Prop :=
  Since before Event.opensPromotion trace

namespace Desk

variable {σ : Type}

/-- A master that waited is heeded: it waits, is about to be taken up, or has its job, which has
come on in some way. Only what is no master when its turn comes is left out. -/
inductive Heeded (J : Desk σ → Prop) (m : Path) (call : List Event) (d : Desk σ) : Prop
  | waits (h : d.pending.contains m = true)
  | left {left : List Path} (stage : d.stage = .promoting left) {x : Path} (mem : x ∈ left)
      (same : x.parts = m.parts)
  | faced {p : Path} {left : List Path} (stage : d.stage = .facing p left) {x : Path}
      (mem : x ∈ p :: left) (same : x.parts = m.parts)
  | job (h : J d)
  | gone (h : d.graph.isMaster m = false) (opened : Opened call d.trace)

variable [Workshop σ] {R : Rules} {c d : Desk σ} {m : Path} {call : List Event}

theorem step_opened (step : Step R c d) (h : Opened call c.trace) : Opened call d.trace :=
  Since.later h (step_grows step)

/-- Where a batch ends, its end is the last event. -/
theorem drain_since {kind : Event → Bool} {before : List Event} {e : Engine σ}
    (within : before <:+ e.trace)
    (of_kind : kind (.drained e.batchJobs e.applyBatch.1) = true) :
    Since before kind e.applyBatch.2.trace := by
  obtain ⟨since, trace⟩ := within
  obtain ⟨deeds, graph, site, -, -, -, same⟩ := e.applyBatch_desk .due true
  have told : e.applyBatch.2.trace =
      .drained e.batchJobs e.applyBatch.1 :: (deeds ++ e.trace) := congrArg Desk.trace same
  rw [told, ← trace]
  exact ⟨.drained e.batchJobs e.applyBatch.1 :: (deeds ++ since), by simp, _,
    List.mem_cons_self, of_kind⟩

/-- Waiting masters are due or taken up only after an event that calls for it. -/
theorem step_opens (step : Step R c d) (within : call <:+ c.trace)
    (h : c.stage ≠ .steady → Opened call c.trace) : d.stage ≠ .steady → Opened call d.trace := by
  intro moving
  have opened (h : Opened call c.trace) := step_opened step h
  cases step with
  | drain => exact drain_since within rfl
  | edit =>
    obtain ⟨since, trace⟩ := within
    exact ⟨.mode .editing :: since, by rw [← trace]; rfl, _, List.mem_cons_self, rfl⟩
  | queue master immediate may is_master free turn =>
    refine opened (h fun steady => moving ?_)
    rw [steady] at turn
    cases turn
    rfl
  | take stage | turn stage | putBack stage | forget stage =>
    exact opened (h (by rw [stage]; simp))
  | done | rest => exact absurd rfl moving
  | _ => exact opened (h moving)

/-- A master that is heeded stays heeded, if a step keeps what its job has come to, and a job that
is queued for it is as good as any. -/
theorem step_heeded {J : Desk σ → Prop} (step : Step R c d) (sane : c.Sane)
    (opened : c.stage ≠ .steady → Opened call c.trace) (keeps : J c → J d)
    (queued : ∀ j ∈ d.jobs, j.isQueued = true → (j.path == m) = true →
      d.trace = .queued j.id j.path :: c.trace → J d)
    (h : c.Heeded J m call) : d.Heeded J m call := by
  rcases h with waits | @⟨left, stage, x, hx, same⟩ | @⟨p, left, stage, x, hx, same⟩ | job |
    ⟨gone, taken⟩
  · -- It waits. It leaves the list for a job of its own, or with the whole list.
    cases step with
    | queue master immediate =>
      by_cases here_ : m.parts = master.parts
      · refine .job (queued (c.newJob master immediate) ?_ rfl ?_ rfl)
        · exact List.mem_append_right _ (List.mem_singleton.mpr rfl)
        · exact Path.beq_iff.mpr here_.symm
      · exact .waits (Pending.contains_remove.mpr ⟨waits, here_⟩)
    | drain =>
      rename_i e may
      obtain ⟨deeds, graph, site, -, -, -, same⟩ := e.applyBatch_desk .due true
      refine .waits ?_
      rw [same]
      exact waits
    | park => exact .waits (Pending.contains_push.mpr (.inl waits))
    | putBack => exact .waits (Pending.contains_push.mpr (.inl waits))
    | take =>
      obtain ⟨x, hx, same⟩ := (sane.valid.same m).mp waits
      exact .left rfl hx same
    | _ => exact .waits waits
  · -- It is left to be taken up, and the turn of the first of those left comes.
    cases step with
    | turn stage' =>
      rw [stage] at stage'
      cases stage'
      exact .faced rfl hx same
    | queue master immediate may is_master free turn =>
      rw [stage] at turn
      cases turn
    | done stage' =>
      rw [stage] at stage'
      cases stage'
      cases hx
    | drain => cases stage
    | drop may stage' | edit stage' | park p stage' | take stage' | putBack stage' | forget stage'
    | rest stage' =>
      rw [stage] at stage'
      cases stage'
    | _ => exact .left stage hx same
  · -- It is its turn, or another's.
    cases step with
    | queue master immediate may is_master free turn =>
      rw [stage] at turn
      cases turn
      rcases List.mem_cons.mp hx with rfl | hx
      · refine .job (queued (c.newJob x immediate) ?_ rfl ?_ rfl)
        · exact List.mem_append_right _ (List.mem_singleton.mpr rfl)
        · exact Path.beq_iff.mpr same
      · exact .left rfl hx same
    | putBack stage' =>
      rw [stage] at stage'
      cases stage'
      rcases List.mem_cons.mp hx with rfl | hx
      · exact .waits (Pending.contains_push.mpr (.inr same.symm))
      · exact .left rfl hx same
    | forget stage' gone =>
      have taken := opened (by rw [stage]; simp)
      rw [stage] at stage'
      cases stage'
      rcases List.mem_cons.mp hx with rfl | hx
      · exact .gone ((FileGraph.isMaster_congr same.symm).trans gone) taken
      · exact .left rfl hx same
    | drain => cases stage
    | drop may stage' | edit stage' | park p stage' | take stage' | turn stage' | done stage'
    | rest stage' =>
      rw [stage] at stage'
      cases stage'
    | _ => exact .faced stage hx same
  · exact .job (keeps job)
  · exact .gone ((step_isMaster step m).trans gone) (step_opened step taken)

omit [Workshop σ] in
/-- Where a call ends, nothing is about to be taken up. -/
theorem Heeded.at_rest {J : Desk σ → Prop} (h : d.Heeded J m call) (steady : d.stage = .steady) :
    d.pending.contains m = true ∨ J d ∨ (d.graph.isMaster m = false ∧ Opened call d.trace) := by
  cases h with
  | waits h => exact .inl h
  | left stage | faced stage =>
    rw [steady] at stage
    cases stage
  | job h => exact .inr (.inl h)
  | gone h opened => exact .inr (.inr ⟨h, opened⟩)

omit [Workshop σ] in
theorem Heeded.of_master {J : Desk σ → Prop} (h : d.Heeded J m call) (steady : d.stage = .steady)
    (is_master : d.graph.isMaster m = true) : d.pending.contains m = true ∨ J d := by
  rcases h.at_rest steady with waits | job | ⟨gone, _⟩
  · exact .inl waits
  · exact .inr job
  · rw [gone] at is_master
    cases is_master

end Desk

end StoryBuild
