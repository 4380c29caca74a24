import StoryBuild.Proofs.JobLedger
import StoryBuild.Proofs.Turns

namespace StoryBuild

theorem Job.not_compiling_of_complete {j : Job} (h : j.isComplete = true) :
    j.isCompiling = false := by
  simp_all [Job.isComplete, Job.isCompiling]

theorem Job.not_queued_of_complete {j : Job} (h : j.isComplete = true) :
    j.isQueued = false := by
  simp_all [Job.isComplete, Job.isQueued]

theorem Job.not_compiling_of_queued {j : Job} (h : j.isQueued = true) :
    j.isCompiling = false := by
  simp_all [Job.isQueued, Job.isCompiling]

theorem Job.not_complete_of_compiling {j : Job} (h : j.isCompiling = true) :
    j.isComplete = false := by
  simp_all [Job.isCompiling, Job.isComplete]

theorem Job.not_complete_of_queued {j : Job} (h : j.isQueued = true) :
    j.isComplete = false := by
  simp_all [Job.isQueued, Job.isComplete]

namespace Core

/-- A job stands between complete jobs and queued ones. -/
structure Place (c : Core) (before : List Job) (j : Job) (after : List Job) : Prop where
  jobs : c.jobs = before ++ j :: after
  front : ∀ a ∈ before, a.isComplete = true
  back : ∀ b ∈ after, b.isQueued = true

section Place

variable {c d : Core} {before after : List Job} {j k : Job}

theorem Ordered.place_compiling (h : c.Ordered) (mem : j ∈ c.jobs)
    (compiling : j.isCompiling = true) : ∃ before after, c.Place before j after := by
  obtain ⟨before, after, split_⟩ := List.append_of_mem mem
  obtain ⟨_, order_after, across⟩ := List.pairwise_append.mp (split_ ▸ h.order)
  refine ⟨before, after, split_, fun a ha => ?_, fun b hb => ?_⟩
  · have stage := (across a ha j (by simp)).stage
    exact stage.resolve_right (by simp [Job.not_queued_of_compiling compiling])
  · have stage := ((List.pairwise_cons.mp order_after).1 b hb).stage
    refine stage.resolve_left fun complete => ?_
    simp [Job.not_compiling_of_complete complete] at compiling

theorem Ordered.place_first (h : c.Ordered) (idle : ∀ x ∈ c.jobs, x.isCompiling = false)
    (first : c.jobs.find? Job.isQueued = some j) : ∃ before after, c.Place before j after := by
  obtain ⟨queued, before, after, split_, none_before⟩ := List.find?_eq_some_iff_append.mp first
  obtain ⟨_, order_after, _⟩ := List.pairwise_append.mp (split_ ▸ h.order)
  refine ⟨before, after, split_, fun a ha => ?_, fun b hb => ?_⟩
  · -- What is in front of the first queued job is not queued, and nothing is being compiled.
    exact Job.complete_of_neither (by simpa using none_before a ha) (idle a (by simp [split_, ha]))
  · have stage := ((List.pairwise_cons.mp order_after).1 b hb).stage
    exact stage.resolve_left (by simp [Job.not_complete_of_queued queued])

namespace Place

theorem mem (h : c.Place before j after) : j ∈ c.jobs := by
  simp [h.jobs]

theorem only (h : c.Place before j after) (mem : k ∈ c.jobs) (compiling : k.isCompiling = true) :
    k = j := by
  rw [h.jobs] at mem
  rcases List.mem_append.mp mem with front | rest
  · simp [Job.not_compiling_of_complete (h.front k front)] at compiling
  · rcases List.mem_cons.mp rest with rfl | back
    · rfl
    · simp [Job.not_compiling_of_queued (h.back k back)] at compiling

theorem idle (h : c.Place before j after) (complete : j.isComplete = true) :
    ∀ x ∈ c.jobs, x.isCompiling = false := by
  intro x hx
  cases compiling : x.isCompiling with
  | false => rfl
  | true =>
    rw [h.only hx compiling, Job.not_compiling_of_complete complete] at compiling
    cases compiling

theorem filter_compiling (h : c.Place before j after) {p : Job → Bool}
    (working : ∀ x, p x = true → x.isCompiling = true) : c.jobs.filter p = [j].filter p := by
  have front : before.filter p = [] := by
    refine List.filter_eq_nil_iff.mpr fun a ha found => ?_
    have compiling := working a found
    simp [Job.not_compiling_of_complete (h.front a ha)] at compiling
  have back : after.filter p = [] := by
    refine List.filter_eq_nil_iff.mpr fun b hb found => ?_
    have compiling := working b found
    simp [Job.not_compiling_of_queued (h.back b hb)] at compiling
  rw [h.jobs, ← List.singleton_append, List.filter_append, List.filter_append, front, back,
    List.nil_append, List.append_nil]

theorem find_compiling (h : c.Place before j after) (compiling : j.isCompiling = true) :
    c.jobs.find? Job.isCompiling = some j := by
  refine List.find?_eq_some_iff_append.mpr ⟨compiling, before, after, h.jobs, fun a ha => ?_⟩
  rw [Job.not_compiling_of_complete (h.front a ha)]
  rfl

theorem find_job (h : c.Place before j after) (compiling : j.isCompiling = true) :
    c.jobs.find? (fun k => k.id == j.id && k.isCompiling) = some j := by
  refine List.find?_eq_some_iff_append.mpr ⟨by simp [compiling], before, after, h.jobs, ?_⟩
  intro a ha
  simp [Job.not_compiling_of_complete (h.front a ha)]

theorem find_queued (h : c.Place before j after) (later : List Job) :
    (before ++ later).find? Job.isQueued = later.find? Job.isQueued := by
  have none_ : before.find? Job.isQueued = none := by
    rw [List.find?_eq_none]
    intro a ha
    simp [Job.not_queued_of_complete (h.front a ha)]
  rw [List.find?_append, none_, Option.none_or]

theorem replace (h : c.Place before j after) (jobs : d.jobs = before ++ k :: after) :
    d.Place before k after :=
  ⟨jobs, h.front, h.back⟩

theorem replace_ordered (h : c.Place before j after) (order : c.Ordered)
    (jobs : d.jobs = before ++ k :: after) (next : d.nextId = c.nextId) (id : k.id = j.id)
    (path : k.path = j.path) : d.Ordered := by
  refine order.replace h.jobs jobs next id ?_
  exact Job.precedes_replace (h.jobs ▸ order.order) id path h.front fun b hb => .inr (h.back b hb)

/-- What waits after that did so before, unless the new job does. -/
theorem queued_before (h : c.Place before j after) (running : k.isQueued = false) :
    ∀ x ∈ before ++ k :: after, x.isQueued = true → x ∈ c.jobs := by
  intro x hx waits
  rw [h.jobs]
  rcases List.mem_append.mp hx with front | rest
  · exact List.mem_append_left _ front
  · rcases List.mem_cons.mp rest with rfl | back
    · simp [running] at waits
    · simp [back]

theorem away (h : c.Place before j after) (order : c.Ordered) :
    (c.jobs.filter fun k => !(k.id == j.id)) = before ++ after := by
  rw [h.jobs]
  exact Job.filter_away (h.jobs ▸ order.order)

end Place

end Place

/-- Nothing is being compiled. -/
structure Rests (c : Core) : Prop where
  idle : ∀ j ∈ c.jobs, j.isCompiling = false
  free : c.worker = none

/-- A job is being compiled, and its worker is out or was told to stop. -/
structure Works (j : Job) (c : Core) : Prop where
  mem : j ∈ c.jobs
  compiling : j.isCompiling = true
  watched : c.worker = some j.id ∨ c.worker = none ∧ .fired j.id ∈ c.story

/-- A core at rest, or at work on a job of some kind. -/
structure Stands (kind : Job → Prop) (c : Core) : Prop where
  ordered : c.Ordered
  unended : ∀ j ∈ c.jobs, j.isQueued = true → j.ended = none
  stand : c.Rests ∨ ∃ j, kind j ∧ c.Works j

/-- A core that starts what it can: at rest it has no queued job. -/
structure Lively (kind : Job → Prop) (c : Core) : Prop extends Stands kind c where
  moving : c.Rests → ∀ j ∈ c.jobs, j.isQueued = false

/-- Whether a job that is started at a time becomes one of a kind. -/
def Admits (kind : Job → Prop) (now : Nat) : Prop :=
  ∀ (j : Job) wall, j.ended = none → kind (j.start now wall)

variable {kind other : Job → Prop} {now : Nat} {c d : Core} {j : Job}

theorem Lively.imp (h : c.Lively kind) (weaker : ∀ j, kind j → other j) : c.Lively other :=
  ⟨⟨h.ordered, h.unended, h.stand.imp_right fun ⟨j, good, works⟩ => ⟨j, weaker j good, works⟩⟩,
    h.moving⟩

theorem Works.busy (h : c.Works j) : ¬ c.Rests := fun rests => by
  have idle := rests.idle j h.mem
  simp [h.compiling] at idle

theorem Works.lively (h : c.Works j) (ordered : c.Ordered)
    (unended : ∀ j ∈ c.jobs, j.isQueued = true → j.ended = none) (good : kind j) :
    c.Lively kind :=
  ⟨⟨ordered, unended, .inr ⟨j, good, h⟩⟩, fun rests => absurd rests h.busy⟩

theorem Rests.lively (h : c.Rests) (ordered : c.Ordered)
    (none_ : ∀ j ∈ c.jobs, j.isQueued = false) : c.Lively kind := by
  refine ⟨⟨ordered, fun j hj queued => ?_, .inl h⟩, fun _ => none_⟩
  simp [none_ j hj] at queued

/-- What is there when a core at work lets the story go on. -/
theorem Lively.onward (h : c.Lively kind) (jobs : d.jobs = c.jobs) (worker : d.worker = c.worker)
    (next : d.nextId = c.nextId) (story : c.story ⊆ d.story) : d.Lively kind := by
  have ordered : d.Ordered := ⟨jobs ▸ h.ordered.order, jobs ▸ next ▸ h.ordered.below⟩
  rcases h.stand with rests | ⟨j, good, works⟩
  · have still : d.Rests := ⟨jobs ▸ rests.idle, worker.trans rests.free⟩
    exact still.lively ordered (jobs ▸ h.moving rests)
  · have still : d.Works j :=
      ⟨jobs ▸ works.mem, works.compiling, worker ▸ works.watched.imp_right (.imp_right (@story _))⟩
    exact still.lively ordered (jobs ▸ h.unended) good

/-- The number of active jobs that are not complete. -/
def unfinished (c : Core) : Nat :=
  c.jobs.countP (!·.isComplete)

/-- Nothing that is outstanding gets lost, and no more of it is unfinished than before. -/
structure KeepsBatch (c d : Core) : Prop where
  outstanding : ((d.jobs ++ d.abandoned).map Job.path).Perm ((c.jobs ++ c.abandoned).map Job.path)
  unfinished : d.unfinished ≤ c.unfinished

theorem unfinished_pos (mem : j ∈ c.jobs) (compiling : j.isCompiling = true) :
    0 < c.unfinished :=
  List.countP_pos_iff.mpr ⟨j, mem, by simp [Job.not_complete_of_compiling compiling]⟩

theorem Lively.unfinished_rests (h : c.Lively kind) (rests : c.Rests) : c.unfinished = 0 := by
  refine List.countP_eq_zero.mpr fun j hj => ?_
  simp [Job.complete_of_neither (h.moving rests j hj) (rests.idle j hj)]

theorem KeepsBatch.refl (c : Core) : c.KeepsBatch c :=
  ⟨.refl _, Nat.le_refl _⟩

theorem KeepsBatch.trans {f : Core} (h : c.KeepsBatch d) (h' : d.KeepsBatch f) : c.KeepsBatch f :=
  ⟨h'.outstanding.trans h.outstanding, Nat.le_trans h'.unfinished h.unfinished⟩

/-- A job that is not complete gives its place to one of the same path. -/
theorem Place.keepsBatch {before after : List Job} {k : Job} (h : c.Place before j after)
    (jobs : d.jobs = before ++ k :: after) (abandoned : d.abandoned = c.abandoned)
    (path : k.path = j.path) (open_ : j.isComplete = false) : c.KeepsBatch d := by
  refine ⟨.of_eq (by simp [jobs, abandoned, h.jobs, path]), ?_⟩
  simp only [Core.unfinished, jobs, h.jobs, List.countP_append, List.countP_cons, open_]
  split <;> simp

/-- A job that is not complete leaves its place, or gives it to one that is. -/
theorem Place.fewer {before after later : List Job} (h : c.Place before j after)
    (open_ : j.isComplete = false) (jobs : d.jobs = before ++ later)
    (few : later.countP (!·.isComplete) ≤ after.countP (!·.isComplete)) :
    d.unfinished < c.unfinished := by
  simp only [Core.unfinished, jobs, h.jobs, List.countP_append, List.countP_cons, open_,
    Bool.not_false, if_true]
  omega

/-- A queued job is set going at a time: it is compiled by a worker, or it ended at once. -/
inductive Started (now : Nat) (j : Job) (c : Core) : Core → Prop where
  | away {before after : List Job} (place : c.Place before j after) (wall : Nat) (launch : Launch)
      (out : launch.worker j.id = some j.id) :
      Started now j c
        { c with
          jobs := before ++ j.start now wall :: after
          worker := some j.id
          story := launch.events j.id ++ c.story }
  | atOnce {before after : List Job} (place : c.Place before j after) (wall : Nat) (launch : Launch)
      (o : Outcome) (stop : Nat) :
      Started now j c
        { c with
          jobs := before ++ (j.start now wall).finish o stop :: after
          worker := none
          story := launch.events j.id ++ c.story }

/-- The queued jobs are started one after the other while the core is at rest. -/
inductive Drains (now : Nat) : List Nat → Core → Core → Prop where
  | done {c : Core} (drained : c.Rests → ∀ j ∈ c.jobs, j.isQueued = false) : Drains now [] c c
  | next {ids : List Nat} {c mid d : Core} {j : Job} (rests : c.Rests)
      (first : c.jobs.find? Job.isQueued = some j) (start : Started now j c mid)
      (rest : Drains now ids mid d) : Drains now (j.id :: ids) c d

namespace Started

theorem ordered (h : Started now j c d) (order : c.Ordered) : d.Ordered := by
  cases h with
  | away place => exact place.replace_ordered order rfl rfl rfl rfl
  | atOnce place => exact place.replace_ordered order rfl rfl rfl rfl

theorem fewer (h : Started now j c d) (waits : j.isQueued = true) :
    d.jobs.countP Job.isQueued < c.jobs.countP Job.isQueued := by
  have behind {before after : List Job} {k : Job} (place : c.Place before j after)
      (running : k.isQueued = false) :
      (before ++ k :: after).countP Job.isQueued < c.jobs.countP Job.isQueued := by
    simp [place.jobs, waits, running]
  cases h with
  | away place => exact behind place rfl
  | atOnce place => exact behind place rfl

theorem queued (h : Started now j c d) : ∀ x ∈ d.jobs, x.isQueued = true → x ∈ c.jobs := by
  cases h with
  | away place => exact place.queued_before rfl
  | atOnce place => exact place.queued_before rfl

theorem stands (h : Started now j c d) (stands : c.Stands kind) (waits : j.isQueued = true)
    (admits : Admits kind now) : d.Stands kind := by
  have unended : ∀ x ∈ d.jobs, x.isQueued = true → x.ended = none :=
    fun x hx queued => stands.unended x (h.queued x hx queued) queued
  refine ⟨h.ordered stands.ordered, unended, ?_⟩
  cases h with
  | away place wall =>
    have mine := stands.unended j place.mem waits
    exact .inr ⟨_, admits j wall mine, ⟨by simp, rfl, .inl rfl⟩⟩
  | atOnce place =>
    exact .inl ⟨Place.idle (place.replace rfl) rfl, rfl⟩

theorem keepsBatch (h : Started now j c d) (waits : j.isQueued = true) : c.KeepsBatch d := by
  have open_ := Job.not_complete_of_queued waits
  cases h with
  | away place => exact place.keepsBatch rfl rfl rfl open_
  | atOnce place => exact place.keepsBatch rfl rfl rfl open_

theorem story (h : Started now j c d) : c.story ⊆ d.story ∧ .started j.id ∈ d.story := by
  have told (launch : Launch) : .started j.id ∈ launch.events j.id := by
    cases launch <;> simp [Launch.events]
  cases h with
  | away place wall launch =>
    exact ⟨List.subset_append_right _ _, List.mem_append_left _ (told launch)⟩
  | atOnce place wall launch =>
    exact ⟨List.subset_append_right _ _, List.mem_append_left _ (told launch)⟩

end Started

namespace Drains

variable {ids : List Nat}

/-- From a core at rest or at work, what can be started is started. -/
theorem lively (h : Drains now ids c d) (stands : c.Stands kind) (admits : Admits kind now) :
    d.Lively kind := by
  induction h with
  | done drained => exact ⟨stands, drained⟩
  | next rests first start rest ih =>
    exact ih (start.stands stands (List.find?_some first) admits)

theorem story (h : Drains now ids c d) :
    c.story ⊆ d.story ∧ ∀ i ∈ ids, .started i ∈ d.story := by
  induction h with
  | done => exact ⟨fun _ hx => hx, by simp⟩
  | next rests first start rest ih =>
    refine ⟨fun _ hx => ih.1 (start.story.1 hx), fun i hi => ?_⟩
    rcases List.mem_cons.mp hi with rfl | later
    · exact ih.1 start.story.2
    · exact ih.2 i later

theorem keepsBatch (h : Drains now ids c d) : c.KeepsBatch d := by
  induction h with
  | done => exact .refl _
  | next rests first start rest ih =>
    exact (start.keepsBatch (List.find?_some first)).trans ih

/-- The oldest queued job is started if the core was at rest. -/
theorem starts_first (h : Drains now ids c d) (rests : c.Rests)
    (first : c.jobs.find? Job.isQueued = some j) : j.id ∈ ids := by
  cases h with
  | done drained =>
    have waits := List.find?_some first
    simp [drained rests j (List.mem_of_find?_eq_some first)] at waits
  | next _ first' =>
    obtain rfl : _ = j := Option.some.inj (first'.symm.trans first)
    exact List.mem_cons_self

end Drains

end Core

namespace Engine

variable {σ : Type} [Workshop σ] {e : Engine σ} {kind : Job → Prop} {j : Job}
  {before after : List Job}

omit [Workshop σ] in
theorem idle_iff : e.core.Rests ↔ e.isCompiling = false ∧ e.inFlight = none := by
  constructor
  · rintro ⟨idle, free⟩
    exact ⟨by simpa [isCompiling] using idle, by simpa [core] using free⟩
  · rintro ⟨idle, free⟩
    exact ⟨by simpa [isCompiling] using idle, by simp [core, free]⟩

theorem finishJob_place {id : Nat} (place : e.core.Place before j after) (order : e.core.Ordered)
    (compiling : j.isCompiling = true) (mine : j.id = id) (o : Outcome) (now : Nat) :
    (e.finishJob id o now).core = { e.core with jobs := before ++ j.finish o now :: after } := by
  subst mine
  have split_ : e.jobs = before ++ j :: after := place.jobs
  rw [finishJob_core (place.find_job compiling), split_,
    Job.map_update (split_ ▸ order.order) fun k => k.finish o now]

theorem startJob_started (rests : e.core.Rests) (order : e.core.Ordered)
    (first : e.jobs.find? Job.isQueued = some j) (now : Nat) :
    Core.Started now j e.core (e.startJob j now).core := by
  obtain ⟨before, after, place⟩ := order.place_first rests.idle first
  have split_ : e.jobs = before ++ j :: after := place.jobs
  have begun_core : (e.markStarted j now).core =
      { e.core with
        jobs := before ++ j.start now e.wall :: after
        worker := none
        story := .started j.id :: e.story } := by
    rw [← rests.free, ← Job.map_update (split_ ▸ order.order) fun k => k.start now e.wall, ← split_]
    rfl
  -- The job ends where it stands, if its compile cannot begin or is done on this thread.
  have finished {d : Engine σ} (jobs : d.core.jobs = (e.markStarted j now).core.jobs)
      (next : d.core.nextId = (e.markStarted j now).core.nextId) (o : Outcome) (stop : Nat) :
      (d.finishJob j.id o stop).core =
        { d.core with jobs := before ++ (j.start now e.wall).finish o stop :: after } := by
    rw [begun_core] at jobs next
    exact finishJob_place (place.replace jobs) (place.replace_ordered order jobs next rfl rfl) rfl
      rfl o stop
  refine startJob_cases (P := fun d => Core.Started now j e.core d.core) e j now
    (fun message _ => ?_) (fun r read _ => ?_) (fun r read _ _ => ?_) (fun r read _ _ => ?_)
  · rw [finished rfl rfl, begun_core]
    exact .atOnce place e.wall .failed _ now
  · have ran := (e.markStarted j now).runHere_core r
    rw [finished (by rw [ran]) (by rw [ran]), ran, ← core_story, begun_core, (request_ids read).1]
    exact .atOnce place e.wall (.here r.master) _ _
  · rw [persist_core, loseWorker_core, ← core_story, begun_core, (request_ids read).1]
    exact .away place e.wall .lost rfl
  · rw [persist_core, sendWorker_core, ← core_story, begun_core, (request_ids read).1]
    exact .away place e.wall (.away r.master) rfl

theorem drain_drains (order : e.core.Ordered) (now : Nat) :
    Core.Drains now (e.drain now).1 e.core (e.drain now).2.core := by
  have loop (steps : Nat) : ∀ e : Engine σ, e.core.Ordered →
      e.jobs.countP Job.isQueued ≤ steps →
      Core.Drains now (drainLoop steps e now).1 e.core (drainLoop steps e now).2.core := by
    -- There are as many rounds as jobs, and each takes one job out of the queue.
    induction steps with
    | zero =>
      intro e _ few
      refine .done fun _ j hj => ?_
      simpa using List.countP_eq_zero.mp (Nat.le_zero.mp few) j hj
    | succ steps ih =>
      intro e order few
      unfold drainLoop
      split
      next busy =>
        refine .done fun rests => ?_
        obtain ⟨idle, free⟩ := idle_iff.mp rests
        simp [idle, free] at busy
      next rest =>
        simp only [Bool.or_eq_true, not_or, Bool.not_eq_true, Option.isSome_eq_false_iff,
          Option.isNone_iff_eq_none] at rest
        have rests := idle_iff.mpr rest
        split
        next none_ =>
          refine .done fun _ j hj => ?_
          simpa using List.find?_eq_none.mp none_ j hj
        next j first =>
          have started := startJob_started rests order first now
          have fewer := started.fewer (List.find?_some first)
          exact .next rests first started (ih _ (started.ordered order) (by simp at fewer; omega))
  exact loop _ e order List.countP_le_length

end Engine

end StoryBuild
