import StoryBuild.Proofs.Calls

namespace StoryBuild

/-- How a job stands to the jobs behind it in the active list. -/
structure Job.Precedes (a b : Job) : Prop where
  id : a.id < b.id
  stage : a.isComplete = true ∨ b.isQueued = true
  path : (a.path == b.path) = false

theorem Job.not_queued_of_compiling {j : Job} (h : j.isCompiling = true) : j.isQueued = false := by
  simp_all [Job.isCompiling, Job.isQueued]

theorem Job.complete_of_neither {j : Job} (queued : j.isQueued = false)
    (compiling : j.isCompiling = false) : j.isComplete = true := by
  cases h : j.state <;> simp_all [Job.isCompiling, Job.isQueued, Job.isComplete]

/-- A change of the job with one identity leaves a list without it alone. -/
theorem Job.map_elsewhere {jobs : List Job} {id : Nat} (f : Job → Job)
    (h : ∀ k ∈ jobs, k.id ≠ id) : (jobs.map fun k => if k.id == id then f k else k) = jobs := by
  have same : ∀ k ∈ jobs, (if k.id == id then f k else k) = k := by
    intro k hk
    rw [if_neg (by simpa using h k hk)]
  rw [List.map_congr_left same, List.map_id']

/-- Where identities grow, a change of the job with one identity is a change in one place. -/
theorem Job.map_update {before after : List Job} {j : Job}
    (order : (before ++ j :: after).Pairwise Job.Precedes) (f : Job → Job) :
    ((before ++ j :: after).map fun k => if k.id == j.id then f k else k) =
      before ++ f j :: after := by
  obtain ⟨_, order_after, across⟩ := List.pairwise_append.mp order
  have behind := (List.pairwise_cons.mp order_after).1
  have in_front : ∀ k ∈ before, k.id ≠ j.id := by
    intro k hk
    have := (across k hk j (by simp)).id
    omega
  have at_back : ∀ k ∈ after, k.id ≠ j.id := by
    intro k hk
    have := (behind k hk).id
    omega
  rw [List.map_append, List.map_cons, Job.map_elsewhere f in_front, Job.map_elsewhere f at_back,
    if_pos (by simp)]

/-- A job keeps its place when it is replaced by one that stands no worse to the others. -/
theorem Job.precedes_replace {before after : List Job} {j k : Job}
    (order : (before ++ j :: after).Pairwise Job.Precedes) (id : k.id = j.id)
    (path : k.path = j.path) (front : ∀ a ∈ before, a.isComplete = true)
    (back : ∀ b ∈ after, k.isComplete = true ∨ b.isQueued = true) :
    (before ++ k :: after).Pairwise Job.Precedes := by
  obtain ⟨order_before, order_after, across⟩ := List.pairwise_append.mp order
  obtain ⟨behind, rest⟩ := List.pairwise_cons.mp order_after
  refine List.pairwise_append.mpr ⟨order_before, List.pairwise_cons.mpr ⟨?_, rest⟩, ?_⟩
  · intro b hb
    have old := behind b hb
    exact ⟨id ▸ old.id, back b hb, path ▸ old.path⟩
  · intro a ha b hb
    rcases List.mem_cons.mp hb with rfl | hb
    · have old := across a ha j (by simp)
      exact ⟨id ▸ old.id, .inl (front a ha), path ▸ old.path⟩
    · exact across a ha b (by simp [hb])

namespace Core

/-- The active list is in order, below the next identity. -/
structure Ordered (c : Core) : Prop where
  order : c.jobs.Pairwise Job.Precedes
  below : ∀ j ∈ c.jobs, j.id < c.nextId

variable {mayQueue mayRestrict : Core → Prop}

theorem Ordered.sublist {c d : Core} (h : c.Ordered) (sub : d.jobs.Sublist c.jobs)
    (next : c.nextId ≤ d.nextId) : d.Ordered :=
  ⟨h.order.sublist sub, fun j hj => Nat.lt_of_lt_of_le (h.below j (sub.subset hj)) next⟩

/-- Active jobs are known by their identities. -/
theorem Ordered.job_eq {c : Core} (h : c.Ordered) {j k : Job} (hj : j ∈ c.jobs) (hk : k ∈ c.jobs)
    (same : j.id = k.id) : j = k := by
  obtain ⟨i, hi, rfl⟩ := List.mem_iff_getElem.mp hj
  obtain ⟨n, hn, rfl⟩ := List.mem_iff_getElem.mp hk
  have order := List.pairwise_iff_getElem.mp h.order
  rcases Nat.lt_trichotomy i n with before | rfl | after
  · exact absurd same (Nat.ne_of_lt (order i n hi hn before).id)
  · rfl
  · exact absurd same (Nat.ne_of_gt (order n i hn hi after).id)

/-- A change of one job that keeps its identity. -/
theorem Ordered.replace {c d : Core} {before after : List Job} {j k : Job} (h : c.Ordered)
    (old : c.jobs = before ++ j :: after) (new : d.jobs = before ++ k :: after)
    (next : d.nextId = c.nextId) (id : k.id = j.id)
    (order : (before ++ k :: after).Pairwise Job.Precedes) : d.Ordered := by
  refine ⟨new ▸ order, ?_⟩
  intro x hx
  rw [next]
  rw [new] at hx
  rcases List.mem_append.mp hx with hx | hx
  · exact h.below x (by simp [old, hx])
  · rcases List.mem_cons.mp hx with rfl | hx
    · rw [id]
      exact h.below j (by simp [old])
    · exact h.below x (by simp [old, hx])

theorem step_ordered {c d : Core} (step : Step mayQueue mayRestrict c d) (h : c.Ordered) :
    d.Ordered := by
  cases step with
  | queue j may fresh state free =>
    constructor
    · refine List.pairwise_append.mpr ⟨h.order, List.pairwise_singleton _ _, ?_⟩
      intro k hk x hx
      rw [List.mem_singleton.mp hx]
      exact ⟨fresh ▸ h.below k hk, .inr state, free k hk⟩
    · intro x hx
      rcases List.mem_append.mp hx with hx | hx
      · exact Nat.lt_succ_of_lt (h.below x hx)
      · rw [List.mem_singleton.mp hx, fresh]
        exact Nat.lt_succ_self _
  | start j now wall launch idle free first =>
    obtain ⟨queued, before, after, split_, none_before⟩ := List.find?_eq_some_iff_append.mp first
    have order := split_ ▸ h.order
    have resting : ∀ k ∈ c.jobs, k.isCompiling = false := by simpa using idle
    -- Everything in front of the first queued job is complete, as nothing compiles.
    have front : ∀ a ∈ before, a.isComplete = true := fun a ha =>
      Job.complete_of_neither (by simpa using none_before a ha) (resting a (by simp [split_, ha]))
    have back : ∀ b ∈ after, (j.start now wall).isComplete = true ∨ b.isQueued = true := by
      intro b hb
      have stage := ((List.pairwise_cons.mp (List.pairwise_append.mp order).2.1).1 b hb).stage
      refine .inr (stage.resolve_left ?_)
      simp_all [Job.isQueued, Job.isComplete]
    have placed : (before ++ j.start now wall :: after).Pairwise Job.Precedes :=
      Job.precedes_replace order rfl rfl front back
    have moved : (c.jobs.map fun k => if k.id == j.id then k.start now wall else k) =
        before ++ j.start now wall :: after := by
      rw [split_, Job.map_update order fun k => k.start now wall]
    exact h.replace split_ moved rfl rfl placed
  | finish id j o now found =>
    obtain ⟨hj, before, after, split_, _⟩ := List.find?_eq_some_iff_append.mp found
    simp only [Bool.and_eq_true, beq_iff_eq] at hj
    obtain ⟨rfl, compiling⟩ := hj
    have order := split_ ▸ h.order
    have front : ∀ a ∈ before, a.isComplete = true := by
      intro a ha
      have stage := ((List.pairwise_append.mp order).2.2 a ha j (by simp)).stage
      exact stage.resolve_right (by simp [Job.not_queued_of_compiling compiling])
    have placed : (before ++ j.finish o now :: after).Pairwise Job.Precedes :=
      Job.precedes_replace order rfl rfl front fun _ _ => .inl rfl
    have moved : (c.jobs.map fun k => if k.id == j.id then k.finish o now else k) =
        before ++ j.finish o now :: after := by
      rw [split_, Job.map_update order fun k => k.finish o now]
    exact h.replace split_ moved rfl rfl placed
  | collect => exact ⟨h.order, h.below⟩
  | fire => exact ⟨h.order, h.below⟩
  | abandon => exact h.sublist List.filter_sublist (Nat.le_refl _)
  | drain => exact ⟨List.Pairwise.nil, by simp⟩
  | drop => exact h.sublist List.filter_sublist (Nat.le_refl _)
  | restrict => exact ⟨h.order, h.below⟩
  | edit => exact ⟨h.order, h.below⟩

/-- At most one job of an active list in order is being compiled. -/
theorem Ordered.compiling_le_one {c : Core} (h : c.Ordered) :
    c.jobs.countP Job.isCompiling ≤ 1 := by
  have order := h.order
  generalize c.jobs = jobs at order
  induction jobs with
  | nil => simp
  | cons j rest ih =>
    obtain ⟨behind, order⟩ := List.pairwise_cons.mp order
    rw [List.countP_cons]
    split
    next compiling =>
      have none_left : rest.countP Job.isCompiling = 0 := by
        rw [List.countP_eq_zero]
        intro k hk both
        rcases (behind k hk).stage with complete | queued
        · simp_all [Job.isCompiling, Job.isComplete]
        · simp [Job.not_queued_of_compiling both] at queued
      omega
    next => exact ih order

end Core

namespace Engine

variable {σ : Type}

theorem fresh_ordered (graph : FileGraph) (options : EngineOptions) (site : σ) (dawn : Nat) :
    (fresh graph options site dawn).core.Ordered :=
  ⟨List.Pairwise.nil, by simp [core, fresh]⟩

end Engine

end StoryBuild
