import StoryBuild.Proofs.QueueOrder

namespace StoryBuild

namespace Event

/-- The job that was made. -/
def handedOut : Event → List Nat
  | .queued id _ => [id]
  | _ => []

/-- The job that the compiler was entered for. -/
def entered : Event → List Nat
  | .called id _ => [id]
  | _ => []

/-- The job that was dropped before it was complete. -/
def discarded : Event → List Nat
  | .dropped id => [id]
  | _ => []

/-- The jobs of the batch that ended. -/
def closed : Event → List Nat
  | .drained jobs _ => jobs.map Job.id
  | _ => []

/-- An event that leaves every job in its place. -/
def LeavesPlaces (event : Event) : Prop :=
  event.handedOut = [] ∧ event.discarded = [] ∧ event.closed = []

end Event

/-- What the events of a trace tell, in the order of their happening. -/
def told (tells : Event → List Nat) (trace : List Event) : List Nat :=
  trace.reverse.flatMap tells

@[simp] theorem told_nil (tells : Event → List Nat) : told tells [] = [] := rfl

@[simp] theorem told_cons (tells : Event → List Nat) (event : Event) (trace : List Event) :
    told tells (event :: trace) = told tells trace ++ tells event := by
  simp [told]

theorem told_append (tells : Event → List Nat) (later earlier : List Event) :
    told tells (later ++ earlier) = told tells earlier ++ told tells later := by
  simp [told]

/-- Events that tell nothing are left out. -/
theorem told_filter {tells : Event → List Nat} {keep : Event → Bool}
    (silent : ∀ event, keep event = false → tells event = []) (trace : List Event) :
    told tells (trace.filter keep) = told tells trace := by
  induction trace with
  | nil => rfl
  | cons event rest ih =>
    cases h : keep event with
    | true => rw [List.filter_cons_of_pos h, told_cons, told_cons, ih]
    | false =>
      rw [List.filter_cons_of_neg (by simp [h]), told_cons, silent event h, ih, List.append_nil]

theorem told_story {σ : Type} (e : Engine σ) {tells : Event → List Nat}
    (silent : ∀ event, event.isStory = false → tells event = []) :
    told tells e.story = told tells e.trace :=
  told_filter silent e.trace

/-- Events that none of them tells anything. -/
theorem told_silent {tells : Event → List Nat} {events : List Event} (earlier : List Event)
    (silent : ∀ event ∈ events, tells event = []) :
    told tells (events ++ earlier) = told tells earlier := by
  induction events with
  | nil => rfl
  | cons event rest ih =>
    rw [List.cons_append, told_cons, silent event (by simp), List.append_nil]
    exact ih fun x hx => silent x (List.mem_cons_of_mem _ hx)

theorem Launch.leaves_places (id : Nat) (launch : Launch) :
    ∀ event ∈ launch.events id, event.LeavesPlaces := by
  cases launch <;>
    simp [Launch.events, Event.LeavesPlaces, Event.handedOut, Event.discarded, Event.closed]

namespace Job

/-- A change that keeps the identities. -/
theorem ids_update {jobs : List Job} {f : Job → Job} {p : Job → Bool}
    (h : ∀ j, (f j).id = j.id) :
    (jobs.map fun k => if p k then f k else k).map id = jobs.map id := by
  rw [List.map_map]
  refine List.map_congr_left fun k _ => ?_
  simp only [Function.comp_apply]
  split
  next => exact h k
  next => rfl

/-- Where identities grow, the removal of one identity takes one job away. -/
theorem filter_away {before after : List Job} {j : Job}
    (order : (before ++ j :: after).Pairwise Job.Precedes) :
    ((before ++ j :: after).filter fun k => !(k.id == j.id)) = before ++ after := by
  obtain ⟨_, order_after, across⟩ := List.pairwise_append.mp order
  have behind := (List.pairwise_cons.mp order_after).1
  have in_front : ∀ k ∈ before, (!(k.id == j.id)) = true := by
    intro k hk
    have := (across k hk j (by simp)).id
    simp; omega
  have at_back : ∀ k ∈ after, (!(k.id == j.id)) = true := by
    intro k hk
    have := (behind k hk).id
    simp; omega
  rw [List.filter_append, List.filter_cons_of_neg (by simp), List.filter_eq_self.mpr in_front,
    List.filter_eq_self.mpr at_back]

theorem insertById_perm (j : Job) (jobs : List Job) : (insertById j jobs).Perm (j :: jobs) := by
  induction jobs with
  | nil => exact .refl _
  | cons k rest ih =>
    unfold insertById
    split
    next => exact .refl _
    next => exact (ih.cons k).trans (.swap j k rest)

theorem sortById_perm (jobs : List Job) : (sortById jobs).Perm jobs := by
  induction jobs with
  | nil => exact .refl _
  | cons j rest ih => exact (insertById_perm j _).trans (ih.cons j)

theorem insertById_sorted (j : Job) {jobs : List Job}
    (h : jobs.Pairwise fun a b => a.id ≤ b.id) :
    (insertById j jobs).Pairwise fun a b => a.id ≤ b.id := by
  induction jobs with
  | nil => exact List.pairwise_singleton _ _
  | cons k rest ih =>
    obtain ⟨behind, order⟩ := List.pairwise_cons.mp h
    unfold insertById
    split
    next le =>
      refine List.pairwise_cons.mpr ⟨?_, h⟩
      intro x hx
      rcases List.mem_cons.mp hx with rfl | hx
      · exact le
      · exact Nat.le_trans le (behind x hx)
    next gt =>
      refine List.pairwise_cons.mpr ⟨?_, ih order⟩
      intro x hx
      rcases List.mem_cons.mp ((insertById_perm j rest).mem_iff.mp hx) with rfl | hx
      · omega
      · exact behind x hx

theorem sortById_sorted (jobs : List Job) : (sortById jobs).Pairwise fun a b => a.id ≤ b.id := by
  induction jobs with
  | nil => exact .nil
  | cons j rest ih => exact insertById_sorted j ih

end Job

namespace Core

variable {mayQueue mayRestrict : Core → Prop}

/-- The identities of the jobs that are active or abandoned. -/
def held (c : Core) : List Nat :=
  (c.jobs ++ c.abandoned).map Job.id

/-- Every identity handed out is in one place, and the batches took them in order. -/
structure Ledger (c : Core) : Prop where
  next : 0 < c.nextId
  numbers : told Event.handedOut c.story = List.range' 1 (c.nextId - 1)
  places : (c.held ++ told Event.closed c.story ++ told Event.discarded c.story).Perm
    (List.range' 1 (c.nextId - 1))
  closed : (told Event.closed c.story).Pairwise (· < ·)
  held_later : ∀ i ∈ told Event.closed c.story, ∀ k ∈ c.held, i < k

namespace Ledger

variable {c d : Core}

theorem below (h : c.Ledger) {i : Nat}
    (hi : i ∈ c.held ++ told Event.closed c.story ++ told Event.discarded c.story) :
    i < c.nextId := by
  have := List.mem_range'_1.mp (h.places.mem_iff.mp hi)
  have := h.next
  omega

theorem held_nodup (h : c.Ledger) : c.held.Nodup := by
  have all := h.places.nodup_iff.mpr (List.nodup_range' 1)
  exact (List.nodup_append.mp (List.nodup_append.mp all).1).1

theorem batch_perm (c : Core) : (c.batch.map Job.id).Perm c.held :=
  (Job.sortById_perm _).map Job.id

/-- The jobs of a batch come in the order of their identities. -/
theorem batch_sorted (h : c.Ledger) : (c.batch.map Job.id).Pairwise (· < ·) := by
  have nodup : (c.batch.map Job.id).Nodup := (batch_perm c).nodup_iff.mpr h.held_nodup
  rw [List.pairwise_map]
  refine ((Job.sortById_sorted _).and (List.pairwise_map.mp nodup)).imp fun ⟨le, ne⟩ => ?_
  omega

/-- A step that tells of no identity, and keeps those that are held. -/
theorem keep (h : c.Ledger) (events : List Event) (held : d.held.Perm c.held)
    (next : d.nextId = c.nextId) (story : d.story = events ++ c.story)
    (leave : ∀ event ∈ events, event.LeavesPlaces) : d.Ledger := by
  have same_handed := told_silent c.story fun x hx => (leave x hx).1
  have same_discarded := told_silent c.story fun x hx => (leave x hx).2.1
  have same_closed := told_silent c.story fun x hx => (leave x hx).2.2
  constructor
  · exact next ▸ h.next
  · rw [story, next, same_handed]
    exact h.numbers
  · rw [story, next, same_closed, same_discarded]
    exact ((held.append_right _).append_right _).trans h.places
  · rw [story, same_closed]
    exact h.closed
  · rw [story, same_closed]
    exact fun i hi k hk => h.held_later i hi k (held.mem_iff.mp hk)

end Ledger

/-- The queue gets a job with the next identity. -/
theorem Ledger.queue {c : Core} {j : Job} (h : c.Ledger) (fresh : j.id = c.nextId) :
    Ledger { c with
      jobs := c.jobs ++ [j]
      nextId := c.nextId + 1
      story := .queued j.id j.path :: c.story } := by
  have next := h.next
  have one_more : List.range' 1 (c.nextId + 1 - 1) = List.range' 1 (c.nextId - 1) ++ [j.id] := by
    have count : c.nextId + 1 - 1 = (c.nextId - 1) + 1 := by omega
    have last : 1 + (c.nextId - 1) = j.id := by omega
    rw [count, List.range'_1_concat, last]
  constructor
  · exact Nat.succ_pos _
  · rw [told_cons, h.numbers, one_more]
    rfl
  · rw [one_more, List.perm_iff_count]
    intro i
    have old := h.places.count_eq i
    simp only [held, told_cons, Event.closed, Event.discarded, List.map_append, List.map_cons,
      List.map_nil, List.count_append, List.append_nil] at old ⊢
    omega
  · rw [told_cons]
    simpa [Event.closed] using h.closed
  · simp only [told_cons, Event.closed, List.append_nil]
    intro i hi k hk
    simp only [held, List.map_append, List.map_cons, List.map_nil, List.mem_append,
      List.mem_singleton] at hk
    rcases hk with (hk | rfl) | hk
    · exact h.held_later i hi k (by simp [held, hk])
    · rw [fresh]
      exact h.below (by simp [hi])
    · exact h.held_later i hi k (by simp [held, hk])

/-- The batch takes everything that is held. -/
theorem Ledger.drain {c : Core} {produced : List Nat} (h : c.Ledger) (s : Summary) :
    Ledger { c with
      jobs := []
      abandoned := []
      story := .drained c.batch s :: (produced.map Event.produced ++ c.story) } := by
  have silent : ∀ tells : Event → List Nat, (∀ id, tells (.produced id) = []) →
      told tells (produced.map Event.produced ++ c.story) = told tells c.story := by
    intro tells none_told
    refine told_silent _ fun event hevent => ?_
    obtain ⟨id, _, rfl⟩ := List.mem_map.mp hevent
    exact none_told id
  have same_closed := silent Event.closed fun _ => rfl
  have same_discarded := silent Event.discarded fun _ => rfl
  have same_handed := silent Event.handedOut fun _ => rfl
  constructor
  · exact h.next
  · rw [told_cons, same_handed]
    simpa [Event.handedOut] using h.numbers
  · refine List.Perm.trans ?_ h.places
    rw [told_cons, told_cons, same_closed, same_discarded, List.perm_iff_count]
    intro i
    have batch := (Ledger.batch_perm c).count_eq i
    simp only [held, List.map_append, List.map_nil, Event.closed, Event.discarded,
      List.count_append, List.append_nil, List.count_nil] at batch ⊢
    omega
  · rw [told_cons, same_closed]
    refine List.pairwise_append.mpr ⟨h.closed, h.batch_sorted, ?_⟩
    intro i hi k hk
    exact h.held_later i hi k ((Ledger.batch_perm c).mem_iff.mp hk)
  · simp [held]

/-- Whatever is not complete is dropped. -/
theorem Ledger.drop {c : Core} (h : c.Ledger) :
    Ledger { c with
      jobs := c.jobs.filter Job.isComplete
      story := ((c.jobs.filter fun k => !k.isComplete).map fun k =>
        Event.dropped k.id).reverse ++ c.story } := by
  have silent : ∀ tells : Event → List Nat, (∀ id, tells (.dropped id) = []) →
      told tells (((c.jobs.filter fun k => !k.isComplete).map fun k =>
        Event.dropped k.id).reverse ++ c.story) = told tells c.story := by
    intro tells none_told
    refine told_silent _ fun event hevent => ?_
    obtain ⟨k, _, rfl⟩ := List.mem_map.mp (List.mem_reverse.mp hevent)
    exact none_told k.id
  have same_closed := silent Event.closed fun _ => rfl
  have same_handed := silent Event.handedOut fun _ => rfl
  have discarded : told Event.discarded (((c.jobs.filter fun k => !k.isComplete).map fun k =>
      Event.dropped k.id).reverse ++ c.story) =
      told Event.discarded c.story ++ (c.jobs.filter fun k => !k.isComplete).map Job.id := by
    rw [told_append]
    simp [told, List.flatMap_map, Event.discarded, ← List.map_eq_flatMap]
  constructor
  · exact h.next
  · rw [same_handed]
    exact h.numbers
  · refine List.Perm.trans ?_ h.places
    rw [same_closed, discarded, List.perm_iff_count]
    intro i
    have parts := ((List.filter_append_perm Job.isComplete c.jobs).map Job.id).count_eq i
    simp only [held, List.map_append, List.count_append] at parts ⊢
    omega
  · rw [same_closed]
    exact h.closed
  · rw [same_closed]
    intro i hi k hk
    refine h.held_later i hi k (List.Sublist.subset ?_ hk)
    exact (List.filter_sublist.append_right _).map Job.id

theorem step_ledger {c d : Core} (step : Step mayQueue mayRestrict c d) (order : c.Ordered)
    (h : c.Ledger) : d.Ledger := by
  cases step with
  | queue j may fresh state free => exact h.queue fresh
  | start j now wall launch idle free first =>
    have held : (c.jobs.map fun k => if k.id == j.id then k.start now wall else k).map Job.id =
        c.jobs.map Job.id := Job.ids_update fun _ => rfl
    refine h.keep _ (.of_eq ?_) rfl rfl (Launch.leaves_places j.id launch)
    simp only [Core.held, List.map_append, held]
  | finish id j o now found =>
    have held : (c.jobs.map fun k => if k.id == id then k.finish o now else k).map Job.id =
        c.jobs.map Job.id := Job.ids_update fun _ => rfl
    refine h.keep [] (.of_eq ?_) rfl rfl (by simp)
    simp only [Core.held, List.map_append, held]
  | collect id out => exact h.keep [_] (.refl _) rfl rfl (by simpa using ⟨rfl, rfl, rfl⟩)
  | fire id out => exact h.keep [_] (.refl _) rfl rfl (by simpa using ⟨rfl, rfl, rfl⟩)
  | abandon j given found id path =>
    obtain ⟨_, before, after, split_, _⟩ := List.find?_eq_some_iff_append.mp found
    have away : (c.jobs.filter fun k => !(k.id == j.id)) = before ++ after := by
      rw [split_]
      exact Job.filter_away (split_ ▸ order.order)
    refine h.keep [] ?_ rfl rfl (by simp)
    simp only [Core.held, away]
    rw [List.perm_iff_count]
    intro i
    simp only [split_, id, List.map_append, List.map_cons, List.map_nil, List.count_append,
      List.count_cons, List.count_nil]
    omega
  | drain s produced => exact h.drain s
  | drop => exact h.drop
  | restrict => exact h.keep [_] (.refl _) rfl rfl (by simpa using ⟨rfl, rfl, rfl⟩)
  | edit => exact h.keep [_] (.refl _) rfl rfl (by simpa using ⟨rfl, rfl, rfl⟩)

/-- The compiler took the jobs in order, and every queued job is behind those that it took. -/
structure Calls (c : Core) : Prop where
  order : (told Event.entered c.story).Pairwise (· < ·)
  queued_later : ∀ i ∈ told Event.entered c.story, ∀ j ∈ c.jobs, j.isQueued = true → i < j.id
  below : ∀ i ∈ told Event.entered c.story, i < c.nextId

/-- A step that enters no compiler, and queues nothing. -/
theorem Calls.keep {c d : Core} (h : c.Calls) (events : List Event)
    (next : d.nextId = c.nextId) (story : d.story = events ++ c.story)
    (silent : ∀ event ∈ events, event.entered = [])
    (queued : ∀ j ∈ d.jobs, j.isQueued = true → j ∈ c.jobs) : d.Calls := by
  have same := told_silent c.story silent
  constructor
  · rw [story, same]
    exact h.order
  · rw [story, same]
    exact fun i hi j hj waits => h.queued_later i hi j (queued j hj waits) waits
  · rw [story, same, next]
    exact h.below

theorem Launch.entered_le_one (id : Nat) (launch : Launch) (earlier : List Event) :
    told Event.entered (launch.events id ++ earlier) = told Event.entered earlier ∨
      told Event.entered (launch.events id ++ earlier) = told Event.entered earlier ++ [id] := by
  cases launch <;> simp [Launch.events, Event.entered]

/-- The first queued job is started, and the compiler may be entered for it. -/
theorem Calls.start {c : Core} {j : Job} {f : Job → Job} {launch : Launch} (h : c.Calls)
    (order : c.Ordered) (first : c.jobs.find? Job.isQueued = some j)
    (starts : (f j).isQueued = false) :
    Calls { c with
      jobs := c.jobs.map fun k => if k.id == j.id then f k else k
      worker := launch.worker j.id
      story := launch.events j.id ++ c.story } := by
  obtain ⟨waits, before, after, split_, none_before⟩ := List.find?_eq_some_iff_append.mp first
  have sorted := split_ ▸ order.order
  have moved : (c.jobs.map fun k => if k.id == j.id then f k else k) = before ++ f j :: after := by
    rw [split_, Job.map_update sorted f]
  have mine : j ∈ c.jobs := by simp [split_]
  -- What still waits is behind the job that was started.
  have left : ∀ k ∈ before ++ f j :: after, k.isQueued = true → k ∈ c.jobs ∧ j.id < k.id := by
    intro k hk still
    rcases List.mem_append.mp hk with hk | hk
    · have := none_before k hk
      simp [still] at this
    · rcases List.mem_cons.mp hk with rfl | hk
      · simp [still] at starts
      · have behind := (List.pairwise_cons.mp (List.pairwise_append.mp sorted).2.1).1 k hk
        exact ⟨by simp [split_, hk], behind.id⟩
  have ahead : ∀ i ∈ told Event.entered c.story, i < j.id :=
    fun i hi => h.queued_later i hi j mine waits
  rcases Launch.entered_le_one j.id launch c.story with same | more
  · refine ⟨?_, ?_, ?_⟩ <;> simp only [same, moved]
    · exact h.order
    · exact fun i hi k hk still => h.queued_later i hi k (left k hk still).1 still
    · exact h.below
  · refine ⟨?_, ?_, ?_⟩ <;> simp only [more, moved]
    · refine List.pairwise_append.mpr ⟨h.order, List.pairwise_singleton _ _, ?_⟩
      intro i hi k hk
      rw [List.mem_singleton.mp hk]
      exact ahead i hi
    · intro i hi k hk still
      obtain ⟨old, behind⟩ := left k hk still
      rcases List.mem_append.mp hi with hi | hi
      · exact h.queued_later i hi k old still
      · rw [List.mem_singleton.mp hi]
        exact behind
    · intro i hi
      rcases List.mem_append.mp hi with hi | hi
      · exact h.below i hi
      · rw [List.mem_singleton.mp hi]
        exact order.below j mine

theorem step_calls {c d : Core} (step : Step mayQueue mayRestrict c d) (order : c.Ordered)
    (h : c.Calls) : d.Calls := by
  cases step with
  | queue j may fresh state free =>
    constructor
    · simpa [Event.entered] using h.order
    · simp only [told_cons, Event.entered, List.append_nil]
      intro i hi k hk waits
      rcases List.mem_append.mp hk with hk | hk
      · exact h.queued_later i hi k hk waits
      · rw [List.mem_singleton.mp hk, fresh]
        exact h.below i hi
    · simp only [told_cons, Event.entered, List.append_nil]
      exact fun i hi => Nat.lt_succ_of_lt (h.below i hi)
  | start j now wall launch idle free first => exact h.start order first rfl
  | finish id j o now found =>
    refine h.keep [] rfl rfl (by simp) ?_
    intro k hk waits
    obtain ⟨old, hold, rfl⟩ := List.mem_map.mp hk
    split at waits
    next => simp [Job.isQueued, Job.finish, Job.complete] at waits
    next other =>
      rw [if_neg other]
      exact hold
  | collect id out => exact h.keep [_] rfl rfl (by simp [Event.entered]) fun _ hk _ => hk
  | fire id out => exact h.keep [_] rfl rfl (by simp [Event.entered]) fun _ hk _ => hk
  | abandon =>
    exact h.keep [] rfl rfl (by simp) fun _ hk _ => List.filter_sublist.subset hk
  | drain s produced =>
    refine h.keep (.drained c.batch s :: produced.map Event.produced) rfl rfl ?_ (by simp)
    simp [Event.entered]
  | drop =>
    refine h.keep _ rfl rfl ?_ fun _ hk _ => List.filter_sublist.subset hk
    intro event hevent
    obtain ⟨k, _, rfl⟩ := List.mem_map.mp (List.mem_reverse.mp hevent)
    rfl
  | restrict => exact h.keep [_] rfl rfl (by simp [Event.entered]) fun _ hk _ => hk
  | edit => exact h.keep [_] rfl rfl (by simp [Event.entered]) fun _ hk _ => hk

/-- Every batch that ended reports its jobs in order. -/
def Reported (c : Core) : Prop :=
  ∀ jobs s, .drained jobs s ∈ c.story → s.compiled = jobs.map Job.path

theorem step_reported {c d : Core} (step : Step mayQueue mayRestrict c d) (h : c.Reported) :
    d.Reported := by
  cases step with
  | drain s produced from_batch compiled =>
    intro jobs t ended
    rcases List.mem_cons.mp ended with same | ended
    · cases same
      exact compiled
    · exact h jobs t (by simpa using ended)
  | start j now wall launch =>
    intro jobs s ended
    refine h jobs s ((List.mem_append.mp ended).resolve_left ?_)
    cases launch <;> simp [Launch.events]
  | finish => exact h
  | abandon => exact h
  | _ =>
    intro jobs s ended
    exact h jobs s (by simpa using ended)

/-- The parts of an active list in order. -/
theorem Ordered.stages {c : Core} (h : c.Ordered) :
    ∃ done now later, c.jobs = done ++ now ++ later ∧ (∀ j ∈ done, j.isComplete = true) ∧
      now.length ≤ 1 ∧ (∀ j ∈ now, j.isCompiling = true) ∧ ∀ j ∈ later, j.isQueued = true := by
  have order := h.order
  generalize c.jobs = jobs at order
  induction jobs with
  | nil => exact ⟨[], [], [], by simp⟩
  | cons j rest ih =>
    obtain ⟨behind, order⟩ := List.pairwise_cons.mp order
    cases complete : j.isComplete with
    | true =>
      obtain ⟨done, now, later, rfl, all_done, one, at_work, waiting⟩ := ih order
      refine ⟨j :: done, now, later, rfl, ?_, one, at_work, waiting⟩
      simpa [complete] using all_done
    | false =>
      have waiting : ∀ k ∈ rest, k.isQueued = true := fun k hk =>
        (behind k hk).stage.resolve_left (by simp [complete])
      cases queued : j.isQueued with
      | true => exact ⟨[], [], j :: rest, by simpa [queued] using waiting⟩
      | false =>
        have compiling : j.isCompiling = true := by
          cases at_work : j.isCompiling with
          | true => rfl
          | false => simp [Job.complete_of_neither queued at_work] at complete
        exact ⟨[], [j], rest, by simpa [compiling] using waiting⟩

/-- Where nothing may be queued, no identity is handed out. -/
theorem step_handedOut {c d : Core} (step : Step (fun _ => False) mayRestrict c d) :
    told Event.handedOut d.story = told Event.handedOut c.story := by
  cases step with
  | queue j may => exact may.elim
  | start j now wall launch =>
    exact told_silent _ fun event hevent => (launch.leaves_places j.id event hevent).1
  | drain s produced =>
    rw [told_cons, told_silent _ (List.forall_mem_map.mpr fun id _ => rfl)]
    exact List.append_nil _
  | drop =>
    rw [told_silent _ fun event hevent => ?_]
    obtain ⟨k, -, rfl⟩ := List.mem_map.mp (List.mem_reverse.mp hevent)
    rfl
  | finish => rfl
  | abandon => rfl
  | _ => exact (told_cons _ _ _).trans (List.append_nil _)

/-- What the scheduling keeps. -/
structure Kept (c : Core) : Prop where
  ordered : c.Ordered
  ledger : c.Ledger
  calls : c.Calls
  reported : c.Reported

theorem step_kept {c d : Core} (step : Step mayQueue mayRestrict c d) (h : c.Kept) : d.Kept :=
  ⟨step_ordered step h.ordered, step_ledger step h.ordered h.ledger,
    step_calls step h.ordered h.calls, step_reported step h.reported⟩

end Core

namespace Engine

variable {σ : Type}

theorem fresh_kept (graph : FileGraph) (options : EngineOptions) (site : σ) (dawn : Nat) :
    (fresh graph options site dawn).core.Kept := by
  refine ⟨fresh_ordered graph options site dawn, ⟨Nat.one_pos, rfl, .nil, .nil, ?_⟩, ⟨.nil, ?_, ?_⟩,
    ?_⟩
  · simp
  · simp
  · simp
  · simp [Core.Reported]

/-- The books of an engine. -/
structure Accounts (e : Engine σ) : Prop where
  /-- Identities are handed out as 1, 2, 3 and so on. -/
  handed_out : told Event.handedOut e.trace = List.range' 1 (e.nextId - 1)
  /-- Each is active, abandoned, in a batch that ended, or dropped: in one place, and once. -/
  places : (e.jobs.map Job.id ++ e.abandoned.map Job.id ++ told Event.closed e.trace ++
    told Event.discarded e.trace).Perm (told Event.handedOut e.trace)
  ids : e.jobs.Pairwise fun a b => a.id < b.id
  masters : e.jobs.Pairwise fun a b => (a.path == b.path) = false
  stages : ∃ done now later, e.jobs = done ++ now ++ later ∧ (∀ j ∈ done, j.isComplete = true) ∧
    now.length ≤ 1 ∧ (∀ j ∈ now, j.isCompiling = true) ∧ ∀ j ∈ later, j.isQueued = true
  /-- A batch that ended reports the masters of its jobs. -/
  reported : ∀ jobs s, .drained jobs s ∈ e.trace → s.compiled = jobs.map Job.path
  batches : (told Event.closed e.trace).Pairwise (· < ·)
  calls : (told Event.entered e.trace).Pairwise (· < ·)

theorem handedOut_story (e : Engine σ) :
    told Event.handedOut e.story = told Event.handedOut e.trace :=
  told_story e fun event h => by cases event <;> trivial

/-- An accepted request hands out one identity, under which its master is queued, and answers
it. -/
theorem submit_handedOut [Workshop σ] {e d : Engine σ} {master : Path} {immediate : Bool}
    {now id : Nat} (accepted : e.submit master immediate now = (.ok id, d)) :
    told Event.handedOut d.trace = told Event.handedOut e.trace ++ [id] ∧
      .queued id master ∈ d.trace := by
  unfold submit at accepted
  split at accepted
  next => cases accepted
  next =>
    cases accepted
    have drained : Core.Steps (fun _ => False) (fun _ => False) (e.addJob master immediate).core
        ((e.addJob master immediate).drain now).2.core := drain_steps _ now
    have same := Core.steps_preserve (P := fun c =>
      told Event.handedOut c.story = told Event.handedOut (e.addJob master immediate).story)
      (fun step h => (Core.step_handedOut step).trans h) drained rfl
    refine ⟨?_, ?_⟩
    · rw [← handedOut_story, ← handedOut_story, ← core_story, same, addJob_story, told_cons]
      rfl
    · have added : .queued e.nextId master ∈ (e.addJob master immediate).core.story := by
        rw [core_story, addJob_story]
        exact List.mem_cons_self
      exact (List.mem_filter.mp ((Core.steps_story drained).subset added)).1

/-- Every run of a new engine keeps its books. -/
theorem run_accounts [Workshop σ] (graph : FileGraph) (options : EngineOptions) (site : σ)
    (dawn : Nat) (acts : List (Act σ)) : ((fresh graph options site dawn).run acts).Accounts := by
  have kept := Core.steps_preserve Core.step_kept ((fresh graph options site dawn).run_moves acts)
    (fresh_kept graph options site dawn)
  generalize (fresh graph options site dawn).run acts = e at kept ⊢
  have handed := e.handedOut_story
  have closed : told Event.closed e.story = told Event.closed e.trace :=
    told_story e fun event h => by cases event <;> trivial
  have discarded : told Event.discarded e.story = told Event.discarded e.trace :=
    told_story e fun event h => by cases event <;> trivial
  have entered : told Event.entered e.story = told Event.entered e.trace :=
    told_story e fun event h => by cases event <;> trivial
  have ledger := kept.ledger
  constructor
  · rw [← handed]
    exact ledger.numbers
  · rw [← handed, ← closed, ← discarded, ← List.map_append]
    exact ledger.numbers ▸ ledger.places
  · exact kept.ordered.order.imp Job.Precedes.id
  · exact kept.ordered.order.imp Job.Precedes.path
  · exact kept.ordered.stages
  · intro jobs s ended
    exact kept.reported jobs s (List.mem_filter.mpr ⟨ended, rfl⟩)
  · rw [← closed]
    exact ledger.closed
  · rw [← entered]
    exact kept.calls.order

end Engine

end StoryBuild
