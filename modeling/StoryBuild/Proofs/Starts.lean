import StoryBuild.Proofs.Polling
import StoryBuild.Proofs.RestrictedMode

namespace StoryBuild

/-- The jobs that were started along a trace, the earliest first. -/
def startsOf (trace : List Event) : List Nat :=
  trace.reverse.filterMap Event.startedJob?

theorem startsOf_append (events trace : List Event) :
    startsOf (events ++ trace) = startsOf trace ++ startsOf events := by
  rw [startsOf, List.reverse_append, List.filterMap_append]
  rfl

theorem startsOf_quiet {events : List Event}
    (quiet : ∀ event ∈ events, event.startedJob? = none) : startsOf events = [] := by
  simpa [startsOf, List.filterMap_eq_nil_iff] using quiet

theorem startsOf_story (trace : List Event) :
    startsOf (trace.filter Event.isStory) = startsOf trace := by
  have silent (event : Event) (h : event.isStory = false) : event.startedJob? = none := by
    cases event <;> simp_all [Event.isStory, Event.startedJob?]
  induction trace with
  | nil => rfl
  | cons event rest ih =>
    cases h : event.isStory with
    | true =>
      rw [List.filter_cons_of_pos h, ← List.singleton_append, startsOf_append, ih,
        ← startsOf_append, List.singleton_append]
    | false =>
      have one : startsOf [event] = [] := startsOf_quiet (by simpa using silent event h)
      have split_ := startsOf_append [event] rest
      rw [one, List.append_nil, List.singleton_append] at split_
      rw [List.filter_cons_of_neg (by simp [h]), ih, split_]

theorem Launch.startsOf_events (id : Nat) (launch : Launch) :
    startsOf (launch.events id) = [id] := by
  cases launch <;> rfl

namespace Core

/-- Whether a job waits for its start. -/
def InQueue (c : Core) (id : Nat) : Prop :=
  ∃ j ∈ c.jobs, j.id = id ∧ j.isQueued = true

/-- Whether a job waited at first, or was made up to a second core. -/
def Offers (c d : Core) (id : Nat) : Prop :=
  c.InQueue id ∨ c.nextId ≤ id ∧ id < d.nextId

/-- Some jobs are started one after the other. They were there to be started, and none but them
has left the queue. -/
structure Dequeues (ids : List Nat) (c d : Core) : Prop where
  told : startsOf d.story = startsOf c.story ++ ids
  next : c.nextId ≤ d.nextId
  once : ids.Nodup
  offered : ∀ id ∈ ids, c.Offers d id
  waits : ∀ id, d.InQueue id ↔ c.Offers d id ∧ id ∉ ids

variable {c d f : Core} {ids more : List Nat} {j : Job} {now : Nat}

theorem Ordered.waits_lt (h : c.Ordered) {id : Nat} (waits : c.InQueue id) : id < c.nextId := by
  obtain ⟨j, hj, rfl, -⟩ := waits
  exact h.below j hj

theorem Ordered.offers_lt (h : c.Ordered) (next : c.nextId ≤ d.nextId) {id : Nat}
    (offers : c.Offers d id) : id < d.nextId := by
  rcases offers with old | new
  · have := h.waits_lt old
    omega
  · exact new.2

namespace Dequeues

/-- Nothing is started while the queued jobs stay what they are. -/
theorem quiet (events : List Event) (story : d.story = events ++ c.story)
    (silent : ∀ event ∈ events, event.startedJob? = none) (next : d.nextId = c.nextId)
    (queue : ∀ j, j.isQueued = true → (j ∈ d.jobs ↔ j ∈ c.jobs)) : c.Dequeues [] d := by
  refine ⟨?_, Nat.le_of_eq next.symm, List.nodup_nil, by simp, fun id => ?_⟩
  · rw [story, startsOf_append, startsOf_quiet silent]
  · have none_ : ¬ (c.nextId ≤ id ∧ id < d.nextId) := by omega
    simp only [Offers, none_, or_false, List.not_mem_nil, not_false_eq_true, and_true, InQueue]
    constructor
    · rintro ⟨j, hj, mine, queued⟩
      exact ⟨j, (queue j queued).mp hj, mine, queued⟩
    · rintro ⟨j, hj, mine, queued⟩
      exact ⟨j, (queue j queued).mpr hj, mine, queued⟩

theorem refl (c : Core) : c.Dequeues [] c :=
  quiet [] rfl (by simp) rfl fun _ _ => Iff.rfl

theorem trans (h : c.Dequeues ids d) (order : c.Ordered) (later : d.Dequeues more f) :
    c.Dequeues (ids ++ more) f := by
  have grows := h.next
  have grows' := later.next
  -- What was started first is below the jobs that were made later, and waits no more.
  have apart (id : Nat) (hid : id ∈ ids) : ¬ d.Offers f id := by
    have below := order.offers_lt grows (h.offered id hid)
    rintro (waits | new)
    · exact ((h.waits id).mp waits).2 hid
    · omega
  have offers (id : Nat) : c.Offers f id ↔ c.Offers d id ∨ d.nextId ≤ id ∧ id < f.nextId := by
    unfold Offers
    constructor
    · rintro (old | new)
      · exact .inl (.inl old)
      · by_cases first : id < d.nextId
        · exact .inl (.inr ⟨new.1, first⟩)
        · exact .inr ⟨Nat.le_of_not_lt first, new.2⟩
    · rintro ((old | new) | new)
      · exact .inl old
      · exact .inr ⟨new.1, Nat.lt_of_lt_of_le new.2 grows'⟩
      · exact .inr ⟨Nat.le_trans grows new.1, new.2⟩
  have onward (id : Nat) (hid : d.Offers f id) : c.Offers f id := by
    rw [offers]
    exact hid.imp_left fun waits => ((h.waits id).mp waits).1
  refine ⟨?_, Nat.le_trans grows grows', ?_, fun id hid => ?_, fun id => ?_⟩
  · rw [later.told, h.told, List.append_assoc]
  · refine List.nodup_append.mpr ⟨h.once, later.once, fun a ha b hb same => ?_⟩
    exact apart a ha (same ▸ later.offered b hb)
  · rcases List.mem_append.mp hid with first | second
    · exact (offers id).mpr (.inl (h.offered id first))
    · exact onward id (later.offered id second)
  · rw [later.waits, List.mem_append, not_or]
    constructor
    · rintro ⟨offered, other⟩
      exact ⟨onward id offered, fun hid => apart id hid offered, other⟩
    · rintro ⟨offered, first, second⟩
      refine ⟨?_, second⟩
      rcases (offers id).mp offered with old | new
      · exact .inl ((h.waits id).mpr ⟨old, first⟩)
      · exact .inr new

end Dequeues

/-- A new job can be started. -/
theorem dequeues_queue (fresh : j.id = c.nextId) (state : j.isQueued = true)
    (jobs : d.jobs = c.jobs ++ [j]) (next : d.nextId = c.nextId + 1)
    (story : d.story = .queued j.id j.path :: c.story) : c.Dequeues [] d := by
  refine ⟨?_, by omega, List.nodup_nil, by simp, fun id => ?_⟩
  · rw [story, ← List.singleton_append, startsOf_append]
    rfl
  · have new : (c.nextId ≤ id ∧ id < d.nextId) ↔ j.id = id := by omega
    simp only [Offers, new, List.not_mem_nil, not_false_eq_true, and_true, InQueue, jobs]
    constructor
    · rintro ⟨k, hk, mine, queued⟩
      rcases List.mem_append.mp hk with old | last
      · exact .inl ⟨k, old, mine, queued⟩
      · exact .inr (List.mem_singleton.mp last ▸ mine)
    · rintro (⟨k, hk, mine, queued⟩ | mine)
      · exact ⟨k, List.mem_append_left _ hk, mine, queued⟩
      · exact ⟨j, by simp, mine, state⟩

/-- A job that is not queued gives its place to one that is not, either. -/
theorem Place.queue_same {before after : List Job} {k : Job} (place : c.Place before j after)
    (other : j.isQueued = false) (other' : k.isQueued = false)
    (jobs : d.jobs = before ++ k :: after) (x : Job) (queued : x.isQueued = true) :
    x ∈ d.jobs ↔ x ∈ c.jobs := by
  have apart (y : Job) (h : y.isQueued = false) : x ≠ y := by
    rintro rfl
    rw [queued] at h
    cases h
  simp [jobs, place.jobs, apart j other, apart k other']

/-- A job that is started is the only one that leaves the queue. -/
theorem Started.dequeues (h : Started now j c d) (order : c.Ordered) (waits : j.isQueued = true) :
    c.Dequeues [j.id] d := by
  have start {before after : List Job} {k : Job} (place : c.Place before j after)
      (running : k.isQueued = false) (launch : Launch) {d : Core}
      (jobs : d.jobs = before ++ k :: after) (next : d.nextId = c.nextId)
      (story : d.story = launch.events j.id ++ c.story) : c.Dequeues [j.id] d := by
    obtain ⟨_, order_after, across⟩ := List.pairwise_append.mp (place.jobs ▸ order.order)
    have behind := (List.pairwise_cons.mp order_after).1
    have offered : c.Offers d j.id := .inl ⟨j, place.mem, rfl, waits⟩
    refine ⟨?_, Nat.le_of_eq next.symm, by simp, by simpa using offered, fun id => ?_⟩
    · rw [story, startsOf_append, launch.startsOf_events]
    · have none_ : ¬ (c.nextId ≤ id ∧ id < d.nextId) := by omega
      simp only [Offers, none_, or_false, List.mem_singleton, InQueue, jobs]
      constructor
      · rintro ⟨x, hx, rfl, queued⟩
        refine ⟨⟨x, place.queued_before running x hx queued, rfl, queued⟩, ?_⟩
        rcases List.mem_append.mp hx with front | rest
        · exact Nat.ne_of_lt (across x front j (by simp)).id
        · rcases List.mem_cons.mp rest with rfl | back
          · simp [running] at queued
          · exact Nat.ne_of_gt (behind x back).id
      · rintro ⟨⟨x, hx, rfl, queued⟩, other⟩
        refine ⟨x, ?_, rfl, queued⟩
        have apart : x ≠ j := fun same => other (congrArg Job.id same)
        rw [place.jobs] at hx
        simp only [List.mem_append, List.mem_cons, apart, false_or] at hx ⊢
        exact hx.imp_right .inr
  cases h with
  | away place wall launch => exact start place rfl launch rfl rfl rfl
  | atOnce place wall launch => exact start place rfl launch rfl rfl rfl

theorem Drains.dequeues (h : Drains now ids c d) (order : c.Ordered) : c.Dequeues ids d := by
  induction h with
  | done => exact .refl _
  | next _ first start _ ih =>
    have started := start.dequeues order (List.find?_some first)
    exact started.trans order (ih (start.ordered order))

end Core

namespace Engine

open StoryBuild.Core

variable {σ : Type} [Workshop σ] {e : Engine σ} {now : Nat}

theorem drain_dequeues (order : e.core.Ordered) :
    e.core.Dequeues (e.drain now).1 (e.drain now).2.core :=
  (drain_drains order now).dequeues order

theorem finishJob_dequeues (order : e.core.Ordered) (id : Nat) (o : Outcome) :
    e.core.Dequeues [] (e.finishJob id o now).core := by
  cases found : e.jobs.find? (fun j => j.id == id && j.isCompiling) with
  | none =>
    rw [finishJob_idle found]
    exact .refl _
  | some j =>
    have mine := List.find?_some found
    simp only [Bool.and_eq_true, beq_iff_eq] at mine
    obtain ⟨before, after, place⟩ :=
      order.place_compiling (List.mem_of_find?_eq_some found) mine.2
    rw [finishJob_place place order mine.2 mine.1]
    exact .quiet [] rfl (by simp) rfl
      (place.queue_same (Job.not_queued_of_compiling mine.2) rfl rfl)

theorem collect_dequeues (order : e.core.Ordered) :
    e.core.Dequeues [] (e.collect now).core := by
  unfold collect
  split
  next => exact .refl _
  next w _ =>
    have free : e.core.Dequeues [] ({ e with inFlight := none }.note (.collected w.job)).core :=
      .quiet [.collected w.job] rfl (by simp [Event.startedJob?]) rfl fun _ _ => Iff.rfl
    have order' : ({ e with inFlight := none }.note (.collected w.job)).core.Ordered :=
      ⟨order.order, order.below⟩
    dsimp only
    split
    next => exact .refl _
    next o _ => exact free.trans order (finishJob_dequeues order' w.job o)
    next =>
      rw [← error_core _ "compile worker exited without reporting a result"] at free order'
      exact free.trans order (finishJob_dequeues order' w.job _)

omit [Workshop σ] in
theorem cancelJob_dequeues (e : Engine σ) (j : Job) :
    e.core.Dequeues [] (e.cancelJob j).core := by
  unfold cancelJob
  split
  next =>
    cases out : e.inFlight with
    | none =>
      rw [cancelWorker_idle out]
      exact .refl _
    | some w =>
      rw [cancelWorker_core out]
      exact .quiet [.fired w.job] rfl (by simp [Event.startedJob?]) rfl fun _ _ => Iff.rfl
  next => exact .refl _

theorem abandon_dequeues (order : e.core.Ordered) {j : Job} (mem : j ∈ e.jobs)
    (compiling : j.isCompiling = true) : e.core.Dequeues [] (e.abandon j now).core := by
  obtain ⟨before, after, place⟩ := order.place_compiling mem compiling
  obtain ⟨given, -, -, same⟩ := e.abandon_core j now
  have left : (e.cancelJob j).core.Dequeues [] (e.abandon j now).core := by
    rw [same]
    refine .quiet [] rfl (by simp) rfl fun x queued => ?_
    have apart : x ≠ j := by
      rintro rfl
      simp [Job.not_queued_of_compiling compiling] at queued
    have away : (e.jobs.filter fun k => !(k.id == j.id)) = before ++ after := place.away order
    have whole : e.jobs = before ++ j :: after := place.jobs
    rw [core_jobs, cancelJob_jobs, away, whole]
    simp [apart]
  exact (cancelJob_dequeues e j).trans order left

theorem expire_dequeues (order : e.core.Ordered) :
    e.core.Dequeues (e.expire now).2.1 (e.expire now).2.2.core := by
  unfold expire
  split
  next => exact .refl _
  next j found =>
    split
    next =>
      have given : e.core.Dequeues [] (e.abandon j now).core :=
        abandon_dequeues order (List.mem_of_find?_eq_some found) (List.find?_some found)
      have moves : Moves e.core (e.abandon j now).core := abandon_steps now found
      exact given.trans order (drain_dequeues (steps_preserve step_ordered moves order))
    next => exact .refl _

theorem advance_dequeues (order : e.core.Ordered) :
    e.core.Dequeues (e.advance now).1 (e.advance now).2.core := by
  unfold advance
  split
  next => exact drain_dequeues order
  next => exact .refl _

theorem applyBatch_dequeues (e : Engine σ) (none_ : e.hasQueued = false) :
    e.core.Dequeues [] e.applyBatch.2.core := by
  obtain ⟨produced, -, -, same⟩ := e.applyBatch_core
  have silent : ∀ event ∈ .drained e.core.batch e.applyBatch.1 :: produced.map Event.produced,
      event.startedJob? = none := by
    intro event h
    rcases List.mem_cons.mp h with rfl | h
    · rfl
    · obtain ⟨i, -, rfl⟩ := List.mem_map.mp h
      rfl
  rw [same]
  refine .quiet _ rfl silent rfl fun j queued => ?_
  have away : j ∉ e.jobs := fun hj => by
    simp only [hasQueued, List.any_eq_false] at none_
    exact none_ j hj queued
  simp [away]

omit [Workshop σ] in
theorem replayEntry_dequeues (e : Engine σ) (s : Summary) :
    e.core.Dequeues [] (e.replayEntry s).core := by
  unfold replayEntry
  split
  next =>
    dsimp only
    split
    next =>
      rw [warn_core]
      exact .refl _
    next =>
      rw [tell_core]
      exact .quiet [.mode .restricted] rfl (by simp [Event.startedJob?]) rfl fun _ _ => Iff.rfl
  next => exact .refl _

/-- A batch that ends without queued jobs starts nothing. -/
theorem endBatch_dequeues (order : e.core.Ordered) (none_ : e.hasQueued = false) :
    e.core.Dequeues [] e.endBatch.2.core := by
  have replayed := replayEntry_dequeues
    (e.applyBatch.2.persist.releaseHost.tell (.stackCompleted e.applyBatch.1)) e.applyBatch.1
  rw [tell_core, releaseHost_core, persist_core] at replayed
  exact (applyBatch_dequeues e none_).trans order replayed

theorem submit_dequeues (order : e.core.Ordered) (master : Path) (immediate : Bool) (now : Nat) :
    ∃ ids, e.core.Dequeues ids (e.submit master immediate now).2.core := by
  unfold submit
  split
  next =>
    rw [noteRefusal_core]
    exact ⟨[], .refl _⟩
  next accepted =>
    have moves : Moves e.core (e.addJob master immediate).core :=
      addJob_steps immediate trivial accepted
    have added : e.core.Dequeues [] (e.addJob master immediate).core := by
      rw [addJob_core]
      exact dequeues_queue (j := e.newJob master immediate) rfl rfl rfl rfl rfl
    exact ⟨_, added.trans order (drain_dequeues (steps_preserve step_ordered moves order))⟩

theorem promote_dequeues (order : e.core.Ordered) (now : Nat) :
    ∃ ids, e.core.Dequeues ids (e.promote now).core := by
  have promoted : (e.promote now).core.Ordered ∧
      ∃ ids, e.core.Dequeues ids (e.promote now).core := by
    refine promote_preserves
      (P := fun d => d.core.Ordered ∧ ∃ ids, e.core.Dequeues ids d.core)
      (fun _ h => h) (fun {d} masters h => ?_) (fun {d} master h => ?_) (fun {d} h => ?_)
      ⟨order, [], .refl _⟩
    · rwa [note_core rfl]
    · obtain ⟨order', ids, first⟩ := h
      have moves : Moves d.core (d.submit master false now).2.core :=
        submit_steps false now fun _ => trivial
      obtain ⟨more, later⟩ := submit_dequeues order' master false now
      exact ⟨steps_preserve step_ordered moves order', ids ++ more, first.trans order later⟩
    · rwa [persist_core]
  exact promoted.2

/-- The jobs that the end of a batch makes can be started by the same look. -/
theorem settle_dequeues (order : e.core.Ordered) (now : Nat) :
    ∃ made, e.core.Dequeues made (e.settle now).2.core ∧ (∀ id ∈ made, e.nextId ≤ id) ∧
      (made ≠ [] → (e.settle now).1.isSome = true) := by
  unfold settle
  split
  next ended =>
    simp only [Bool.and_eq_true, Bool.not_eq_true'] at ended
    have none_ : e.hasQueued = false := ended.1.2
    have closed := endBatch_dequeues order none_
    have moves : Moves e.core e.endBatch.2.core := endBatch_steps e fun _ _ _ => trivial
    have closed : ∃ made, e.core.Dequeues made (e.closeBatch now).2.core := by
      unfold closeBatch
      dsimp only
      split
      next =>
        obtain ⟨made, later⟩ :=
          promote_dequeues (steps_preserve step_ordered moves order) now
        exact ⟨_, closed.trans order later⟩
      next => exact ⟨[], closed⟩
    obtain ⟨made, closes⟩ := closed
    refine ⟨made, closes, fun id hid => ?_, fun _ => rfl⟩
    rcases closes.offered id hid with ⟨j, hj, -, queued⟩ | new
    · simp only [hasQueued, List.any_eq_false] at none_
      exact absurd queued (none_ j hj)
    · exact new.1
  next => exact ⟨[], .refl _, by simp, by simp⟩

theorem beforeEnd_steps {mayQueue mayRestrict : Core → Prop} (e : Engine σ) (now : Nat) :
    Steps mayQueue mayRestrict e.core (e.beforeEnd now).core :=
  (collect_steps e now).trans <| (expire_steps _ now).trans (advance_steps _ now)

/-- Up to the end of the batch no job is made. -/
theorem beforeEnd_nextId (e : Engine σ) (now : Nat) : (e.beforeEnd now).nextId = e.nextId := by
  have keeps {c d : Core} (step : Step (fun _ => False) (fun _ => True) c d)
      (h : c.nextId = e.nextId) : d.nextId = e.nextId := by
    cases step with
    | queue _ never => exact never.elim
    | _ => exact h
  exact steps_preserve (P := fun c => c.nextId = e.nextId) keeps (e.beforeEnd_steps now) rfl

theorem beforeEnd_dequeues (order : e.core.Ordered) (now : Nat) :
    e.core.Dequeues (e.pollAt now).1.started (e.beforeEnd now).core := by
  have collected : Moves e.core (e.collect now).core := collect_steps e now
  have order₁ := steps_preserve step_ordered collected order
  have expired : Moves (e.collect now).core ((e.collect now).expire now).2.2.core :=
    expire_steps _ now
  have order₂ := steps_preserve step_ordered expired order₁
  exact (collect_dequeues order).trans order <|
    (expire_dequeues order₁).trans order₁ (advance_dequeues order₂)

/-- What a look has to do with the jobs that it starts: those that it reports were there before,
and the others were made by the look. -/
structure LookStarts (e d : Engine σ) (step : PollStep) (made : List Nat) : Prop where
  told : startsOf d.trace = startsOf e.trace ++ (step.started ++ made)
  once : (step.started ++ made).Nodup
  left : ∀ id, id ∈ step.started ++ made ↔ e.core.Offers d.core id ∧ ¬ d.core.InQueue id
  before : ∀ id ∈ step.started, e.core.InQueue id
  during : ∀ id ∈ made, e.nextId ≤ id ∧ id < d.nextId
  at_end : made ≠ [] → step.completed.isSome = true

theorem pollAt_starts (order : e.core.Ordered) (now : Nat) :
    ∃ made, LookStarts e (e.pollAt now).2 (e.pollAt now).1 made := by
  have first := beforeEnd_dequeues order now
  have moves : Moves e.core (e.beforeEnd now).core := e.beforeEnd_steps now
  have order' := steps_preserve step_ordered moves order
  obtain ⟨made, last, new, at_end⟩ := settle_dequeues order' now
  rw [beforeEnd_nextId] at new
  have whole : e.core.Dequeues ((e.pollAt now).1.started ++ made) (e.pollAt now).2.core :=
    first.trans order last
  refine ⟨made, ?_, whole.once, fun id => ?_, fun id hid => ?_, fun id hid => ?_, at_end⟩
  · have told := whole.told
    rwa [core_story, core_story, story, story, startsOf_story, startsOf_story] at told
  · rw [whole.waits, not_and, Classical.not_not]
    constructor
    · intro hid
      exact ⟨whole.offered id hid, fun _ => hid⟩
    · rintro ⟨offered, started⟩
      exact started offered
  · refine (first.offered id hid).resolve_right fun new => ?_
    have same : (e.beforeEnd now).core.nextId = e.core.nextId := e.beforeEnd_nextId now
    omega
  · exact ⟨new id hid, order'.offers_lt last.next (last.offered id hid)⟩

/-- A look at an engine that anything happened to reports the jobs that it starts, in order, but
for those that it made itself at the end of a batch. -/
theorem run_look_starts (graph : FileGraph) (options : EngineOptions) (site : σ) (dawn : Nat)
    (acts : List (Act σ)) (now : Nat) :
    let e := (fresh graph options site dawn).run acts
    ∃ made, LookStarts e (e.pollAt now).2 (e.pollAt now).1 made :=
  pollAt_starts (steps_preserve step_ordered (run_moves _ acts)
    (fresh_ordered graph options site dawn)) now

/-- A master changes while it is compiled. The look that takes it up starts its second job and
reports no start. -/
theorem promoted_start_unreported :
    let e := (fresh twoOwners {} twoOwnersSite 0).run
      [.compileFile (.ofText "x.ink") false, .sourceChanged (.ofText "x.ink")]
    startsOf e.trace = [1] ∧ startsOf (e.pollAt 0).2.trace = [1, 2] ∧
      (e.pollAt 0).1.started = [] ∧ (e.pollAt 0).1.completed.isSome = true ∧
      ∃ made, LookStarts e (e.pollAt 0).2 (e.pollAt 0).1 made ∧ made = [2] := by
  intro e
  have before : startsOf e.trace = [1] := by decide +kernel
  have after : startsOf (e.pollAt 0).2.trace = [1, 2] := by decide +kernel
  have unreported : (e.pollAt 0).1.started = [] := by decide +kernel
  obtain ⟨made, starts⟩ := run_look_starts twoOwners {} twoOwnersSite 0
    [.compileFile (.ofText "x.ink") false, .sourceChanged (.ofText "x.ink")] 0
  refine ⟨before, after, unreported, by decide +kernel, made, starts, ?_⟩
  have told : startsOf (e.pollAt 0).2.trace =
      startsOf e.trace ++ ((e.pollAt 0).1.started ++ made) := starts.told
  rw [before, after, unreported] at told
  simpa using told.symm

end Engine

end StoryBuild
