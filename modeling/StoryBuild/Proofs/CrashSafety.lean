import StoryBuild.Proofs.RestrictedMode
import StoryBuild.Proofs.Snapshots

namespace StoryBuild

/-- Since a trace a job came to its end: its result is on record, or it was dropped, or it was
given up while it was compiled. -/
def Over (id : Nat) (before trace : List Event) : Prop :=
  ∃ since, trace = since ++ before ∧ (.applied id ∈ since ∨ .dropped id ∈ since ∨
    ∃ later earlier, since = later ++ .log timeoutLine :: earlier ∧
      lastStarted (earlier ++ before) = some id)

/-- Since a trace a job was queued for a master and came to its end. -/
def Served (m : Path) (before trace : List Event) : Prop :=
  ∃ id q since, (q == m) = true ∧ trace = since ++ before ∧ .queued id q ∈ since ∧
    Over id before trace

/-- The masters that an event tells to be still to come. -/
def Event.toCome? : Event → Option (List Path)
  | .toCome masters => some masters
  | _ => none

/-- The masters that were taken off the waiting list and whose turns are still to come. Once all
waiting masters were taken up, there are none. -/
def toCome (trace : List Event) : List Path :=
  (trace.findSome? Event.toCome?).getD []

/-- Waiting masters are being taken up, and the turn of this one is still to come. -/
def Overtaken (m : Path) (trace : List Event) : Prop :=
  ∃ x ∈ toCome trace, (x == m) = true

instance (m : Path) (trace : List Event) : Decidable (Overtaken m trace) :=
  inferInstanceAs (Decidable (∃ x ∈ toCome trace, _))

/-- What excuses a master that waited: its new job is over, or it was no master when its turn
came. -/
def Excused (m : Path) (gone : Prop) (before trace : List Event) : Prop :=
  Served m before trace ∨ (gone ∧ Opened before trace)

theorem toCome_append (events trace : List Event)
    (silent : ∀ event ∈ events, event.toCome? = none) :
    toCome (events ++ trace) = toCome trace := by
  rw [toCome, List.findSome?_append, List.findSome?_eq_none_iff.mpr silent]
  rfl

theorem Overtaken.wrote {m : Path} {trace : List Event} (h : Overtaken m trace) (q : Path)
    (content : ByteArray) : Overtaken m (.wrote q content :: trace) :=
  h

theorem Overtaken.append {m : Path} {trace : List Event} (h : Overtaken m trace)
    (events : List Event) (silent : ∀ event ∈ events, event.toCome? = none) :
    Overtaken m (events ++ trace) := by
  rwa [Overtaken, toCome_append events trace silent]

section

variable {id : Nat} {m : Path} {gone : Prop} {before trace : List Event}

theorem Over.append (h : Over id before trace) (events : List Event) :
    Over id before (events ++ trace) := by
  obtain ⟨since, rfl, ended⟩ := h
  refine ⟨events ++ since, (List.append_assoc ..).symm, ?_⟩
  rcases ended with applied | dropped | ⟨later, earlier, rfl, started⟩
  · exact .inl (List.mem_append_right _ applied)
  · exact .inr (.inl (List.mem_append_right _ dropped))
  · exact .inr (.inr ⟨events ++ later, earlier, (List.append_assoc ..).symm, started⟩)

theorem Served.append (h : Served m before trace) (events : List Event) :
    Served m before (events ++ trace) := by
  obtain ⟨id, q, since, mine, rfl, queued, ended⟩ := h
  exact ⟨id, q, events ++ since, mine, (List.append_assoc ..).symm,
    List.mem_append_right _ queued, ended.append events⟩

theorem Excused.append (h : Excused m gone before trace) (events : List Event) :
    Excused m gone before (events ++ trace) := by
  rcases h with served | ⟨left, opened⟩
  · exact .inl (served.append events)
  · exact .inr ⟨left, Since.later opened (List.suffix_append events _)⟩

end

namespace Desk

variable {σ : Type}

/-- A job of a master is active, or it is over. -/
def Follows (id : Nat) (m : Path) (before : List Event) (d : Desk σ) : Prop :=
  (∃ k ∈ d.jobs, k.id = id ∧ (k.path == m) = true) ∨ Over id before d.trace

/-- Since a trace a job was queued for a master, which is active or over. -/
def Renewed (m : Path) (before : List Event) (d : Desk σ) : Prop :=
  ∃ id q since, (q == m) = true ∧ d.trace = since ++ before ∧ .queued id q ∈ since ∧
    d.Follows id m before

/-- A master waits or is active wherever a snapshot may be written, unless it is excused. -/
def Minded (m : Path) (excuse : List Event → Prop) (d : Desk σ) : Prop :=
  d.stage.MaySave → d.Holds m ∨ excuse d.trace

/-- After every write since a trace, the last snapshot resumes a master that is not excused. -/
def Safe (p m : Path) (excuse : List Event → Prop) (before : List Event) (d : Desk σ) : Prop :=
  ∀ q content earlier, .wrote q content :: earlier <:+ d.trace → before <:+ earlier →
    Resumable m p (.wrote q content :: earlier) ∨ excuse (.wrote q content :: earlier)

theorem Follows.minded {id : Nat} {m : Path} {before : List Event} {d : Desk σ}
    (h : d.Follows id m before) : d.Minded m (Over id before) :=
  fun _ => h.imp_left fun ⟨k, hk, _, mine⟩ => .inr ⟨k, hk, mine⟩

variable [Workshop σ] {R : Rules} {c d : Desk σ} {p m : Path} {g : FileGraph} {id : Nat}
  {before : List Event}

theorem step_follows (step : Step R c d) (sane : c.Sane) (within : before <:+ c.trace)
    (h : c.Follows id m before) : d.Follows id m before := by
  obtain ⟨events, grown⟩ := step_grows step
  rcases h with ⟨k, hk, rfl, mine⟩ | ended
  · obtain ⟨since, trace⟩ := within
    cases step with
    | queue => exact .inl ⟨k, List.mem_append_left _ hk, rfl, mine⟩
    | start j now wall | finish j _ o now =>
      refine .inl ⟨_, List.mem_map.mpr ⟨k, hk, rfl⟩, ?_, ?_⟩ <;> split <;> first | rfl | exact mine
    | abandon j given found id path output =>
      by_cases same : k.id = j.id
      · -- The compile that is given up is the last that was started.
        refine .inr ⟨.log timeoutLine :: since, by rw [List.cons_append, trace], .inr (.inr ?_)⟩
        refine ⟨[], since, rfl, ?_⟩
        have hj := List.mem_of_find?_eq_some found
        have last := sane.traced.compiling j hj (List.find?_some found)
        rw [trace, same]
        exact (lastStarted_story c.trace).symm.trans last
      · exact .inl ⟨k, List.mem_filter.mpr ⟨hk, by simpa using same⟩, rfl, mine⟩
    | @drain e =>
      obtain ⟨deeds, graph, site, -, applied, -, same⟩ := e.applyBatch_desk .due true
      have old : since ++ before = e.trace := trace
      refine .inr ?_
      rw [same, ← old]
      refine ⟨.drained e.batchJobs e.applyBatch.1 :: (deeds ++ since), by simp, .inl ?_⟩
      have mine := applied k (Engine.batchJobs_mem.mpr (.inl hk))
      exact List.mem_cons_of_mem _ (List.mem_append_left _ mine)
    | drop =>
      cases complete : k.isComplete with
      | true => exact .inl ⟨k, List.mem_filter.mpr ⟨hk, complete⟩, rfl, mine⟩
      | false =>
        refine .inr ⟨((c.jobs.filter fun k => !k.isComplete).map fun k =>
          Event.dropped k.id).reverse ++ since, by rw [List.append_assoc, trace], .inr (.inl ?_)⟩
        refine List.mem_append_left _ (List.mem_reverse.mpr (List.mem_map.mpr ⟨k, ?_, rfl⟩))
        exact List.mem_filter.mpr ⟨hk, by simp [complete]⟩
    | _ => exact .inl ⟨k, hk, rfl, mine⟩
  · exact .inr (grown ▸ ended.append events)

theorem step_renewed (step : Step R c d) (sane : c.Sane) (h : c.Renewed m before) :
    d.Renewed m before := by
  obtain ⟨id, q, since, mine, trace, queued, follows⟩ := h
  obtain ⟨events, grown⟩ := step_grows step
  refine ⟨id, q, events ++ since, mine, ?_, List.mem_append_right _ queued,
    step_follows step sane ⟨since, trace.symm⟩ follows⟩
  rw [← grown, trace, List.append_assoc]

/-- The trace tells whose turns are still to come. -/
theorem step_toCome (step : Step R c d) (h : toCome c.trace = c.stage.toCome) :
    toCome d.trace = d.stage.toCome := by
  cases step with
  | tell event quiet =>
    refine (toCome_append [event] c.trace ?_).trans h
    simp only [List.mem_singleton, forall_eq]
    cases event <;> first | rfl | cases quiet
  | start j now wall launch => cases launch <;> exact h
  | queue master immediate may is_master free turn =>
    generalize c.stage = stage at turn h
    cases turn <;> exact h
  | @drain e =>
    obtain ⟨deeds, graph, site, said, -, -, same⟩ := e.applyBatch_desk .due true
    rw [same]
    refine (toCome_append (.drained e.batchJobs e.applyBatch.1 :: deeds) e.trace ?_).trans h
    intro event hevent
    rcases List.mem_cons.mp hevent with rfl | hevent
    · rfl
    · cases said event hevent <;> rfl
  | drop =>
    refine (toCome_append _ c.trace fun event hevent => ?_).trans h
    obtain ⟨k, -, rfl⟩ := List.mem_map.mp (List.mem_reverse.mp hevent)
    rfl
  | edit stage =>
    rw [stage] at h
    exact h
  | take => rfl
  | turn => rfl
  | putBack stage | forget stage | done stage | rest stage =>
    rw [stage] at h
    exact h
  | _ => exact h

omit [Workshop σ] in
/-- A master that is heeded is held wherever a snapshot may be written, unless its turn is still to
come. -/
theorem Heeded.minded {d : Desk σ} (h : d.Heeded (Renewed m before) m before)
    (told : toCome d.trace = d.stage.toCome) :
    d.Minded m fun trace =>
      Excused m (d.graph.isMaster m = false) before trace ∨ Overtaken m trace := by
  intro may
  cases h with
  | waits h => exact .inl (.inl h)
  | left stage mem same =>
    rw [stage] at told
    exact .inr (.inr ⟨_, told ▸ mem, Path.beq_iff.mpr same⟩)
  | faced stage =>
    rw [stage] at may
    exact may.elim
  | job renewed =>
    obtain ⟨id, q, since, mine, trace, queued, follows⟩ := renewed
    refine follows.imp ?_ fun ended => .inl (.inl ⟨id, q, since, mine, trace, queued, ended⟩)
    exact fun ⟨k, hk, _, hm⟩ => .inr ⟨k, hk, hm⟩
  | gone h opened => exact .inr (.inl (.inr ⟨h, opened⟩))

variable {excuse : List Event → Prop}

omit [Workshop σ] in
/-- The writes after some new events are the old ones and those among the events. -/
theorem Safe.grow (h : c.Safe p m excuse before) (events : List Event)
    (trace : d.trace = events ++ c.trace)
    (new : ∀ front q content middle, events = front ++ .wrote q content :: middle →
      Resumable m p (.wrote q content :: (middle ++ c.trace)) ∨
        excuse (.wrote q content :: (middle ++ c.trace))) : d.Safe p m excuse before := by
  intro q content earlier within old
  rw [trace] at within
  -- The write ends a trace from before the new events, or it is one of them.
  rcases List.suffix_or_suffix_of_suffix within (List.suffix_append events c.trace) with
    within' | above
  · exact h q content earlier within' old
  · rcases List.suffix_cons_iff.mp above with same | ⟨middle, rfl⟩
    · exact h q content earlier (same ▸ List.suffix_refl _) old
    · obtain ⟨front, whole⟩ := within
      rw [← List.cons_append, ← List.append_assoc] at whole
      exact new front q content middle (List.append_cancel_right whole).symm

omit [Workshop σ] in
theorem Safe.grow_silent (h : c.Safe p m excuse before) (events : List Event)
    (trace : d.trace = events ++ c.trace) (silent : ∀ q content, .wrote q content ∉ events) :
    d.Safe p m excuse before :=
  h.grow events trace fun front q content middle same => absurd (by simp [same]) (silent q content)

theorem step_safe (step : Step R c d) (calm : Undisturbed p g d.trace) (secured : c.Secured p g)
    (lasts : ∀ events trace, (∀ event ∈ events, event.toCome? = none) → excuse trace →
      excuse (events ++ trace))
    (minded : c.Minded m excuse) (h : c.Safe p m excuse before) : d.Safe p m excuse before := by
  have calm' := calm.suffix (step_grows step)
  cases step with
  | tell event quiet =>
    refine h.grow_silent [event] rfl fun q content hq => ?_
    rw [← List.mem_singleton.mp hq] at quiet
    cases quiet
  | save q kept may =>
    cases secured.kept.symm.trans kept
    refine h.grow [.wrote p c.snapshot.render.toUTF8] rfl ?_
    rintro front q content middle same
    obtain ⟨rfl, whole⟩ : front = [] ∧ _ := by
      cases front with
      | nil => exact ⟨rfl, same⟩
      | cons => simp at same
    cases whole
    refine (minded may).imp (save_resumes p secured.sane.valid) ?_
    exact fun excused => lasts [_] c.trace (by simp [Event.toCome?]) excused
  | @drain e =>
    obtain ⟨deeds, graph, site, said, -, -, same⟩ := e.applyBatch_desk .due true
    rw [same]
    -- What the record writes lies elsewhere, so the last snapshot is that from before it.
    refine h.grow (c := e.desk .steady true) (.drained e.batchJobs e.applyBatch.1 :: deeds) rfl ?_
    intro front q content middle whole
    have part : ∀ event ∈ .wrote q content :: middle, event ∈ deeds := by
      intro event hevent
      cases front with
      | nil => cases whole
      | cons first front =>
        obtain ⟨-, rfl⟩ := List.cons.inj whole
        exact List.mem_append_right _ hevent
    have resumed : Resumable m p e.trace ∨ excuse e.trace :=
      (minded Stage.maySave_steady).imp_left (secured.covered rfl m)
    rw [← List.cons_append]
    refine resumed.imp (fun resumed => ?_) (lasts _ _ fun event hevent => ?_)
    · exact resumed.append _ fun event hevent =>
        deeds_write_none secured.aimed calm' said event (part event hevent)
    · cases said event (part event hevent) <;> rfl
  | start j now wall launch =>
    exact h.grow_silent _ rfl (by cases launch <;> simp [Launch.events])
  | drop => exact h.grow_silent _ rfl (by simp)
  | refuse | queue | collect | fire | abandon | restrict | edit | take | turn =>
    exact h.grow_silent [_] rfl (by simp)
  | _ => exact h

/-- After every write of a call a master is resumed or excused, if it is minded all the way. -/
theorem course_safe (course : Course R c d) (calm : Undisturbed p g d.trace)
    (secured : c.Secured p g)
    (lasts : ∀ events trace, (∀ event ∈ events, event.toCome? = none) → excuse trace →
      excuse (events ++ trace))
    (minded : ∀ b, Course R c b → b.Minded m excuse) (h : c.Safe p m excuse before) :
    d.Safe p m excuse before := by
  induction course with
  | refl => exact h
  | tail first step ih =>
    have calm' := calm.suffix (step_grows step)
    exact step_safe step calm (course_secured first calm' secured) lasts (minded _ first) (ih calm')

theorem course_follows (course : Course R c d) (sane : c.Sane) (within : before <:+ c.trace)
    (h : c.Follows id m before) : d.Follows id m before := by
  induction course with
  | refl => exact h
  | tail first step ih =>
    exact step_follows step (course_sane first sane) (within.trans (course_grows first)) ih

theorem course_toCome (course : Course R c d) (h : toCome c.trace = c.stage.toCome) :
    toCome d.trace = d.stage.toCome :=
  course_preserves (P := fun d => toCome d.trace = d.stage.toCome) step_toCome course h

theorem course_opens (course : Course R c d) (within : before <:+ c.trace)
    (h : c.stage ≠ .steady → Opened before c.trace) :
    d.stage ≠ .steady → Opened before d.trace := by
  induction course with
  | refl => exact h
  | tail first step ih => exact step_opens step (within.trans (course_grows first)) ih

theorem course_renewed (course : Course R c d) (sane : c.Sane) (within : before <:+ c.trace)
    (steady : c.stage = .steady) (h : c.Heeded (Renewed m before) m before) :
    d.Heeded (Renewed m before) m before := by
  induction course with
  | refl => exact h
  | @tail b d first step ih =>
    have sane' := course_sane first sane
    obtain ⟨since, trace⟩ := within.trans (course_grows first)
    have opened := course_opens first within fun moving => absurd steady moving
    refine step_heeded step sane' opened (step_renewed step sane') ?_ ih
    intro j hj _ mine new
    exact ⟨j.id, j.path, .queued j.id j.path :: since, mine, by rw [new, ← trace]; rfl,
      List.mem_cons_self, .inl ⟨j, hj, rfl, mine⟩⟩

omit [Workshop σ] in
/-- Once all is saved, the last snapshot resumes a master that is minded. -/
theorem Minded.resumes (h : d.Minded m excuse) (may : d.stage.MaySave) (saved : d.saved = true)
    (secured : d.Secured p g) : Resumable m p d.trace ∨ excuse d.trace :=
  (h may).imp_left (secured.covered saved m)

end Desk

namespace Engine

variable {σ : Type} [Workshop σ] {m p : Path} {g : FileGraph}

/-- A look writes nothing. -/
theorem look_safe (e : Engine σ) (a : Act σ) (excuse : List Event → Prop) :
    ((e.look a).desk .steady true).Safe p m excuse e.trace := by
  have nothing : (e.desk .steady true).Safe p m excuse e.trace := by
    intro q content earlier within old
    have longer := within.length_le
    have shorter := old.length_le
    simp only [List.length_cons, desk] at longer
    omega
  obtain ⟨graph, site, events, quiet, same⟩ := e.look_desk .steady a
  refine nothing.grow_silent events (by rw [same]; rfl) fun q content hq => ?_
  cases quiet _ hq

/-- Where a call begins and ends, no turn is to come. -/
theorem look_toCome {e : Engine σ} (h : toCome e.trace = []) (a : Act σ) :
    toCome (e.look a).trace = [] := by
  obtain ⟨graph, site, events, quiet, same⟩ := e.look_desk .steady a
  have trace : (e.look a).trace = events ++ e.trace := congrArg Desk.trace same
  rw [trace, toCome_append events e.trace (fun event hevent => ?_), h]
  have silent := quiet event hevent
  cases event <;> first | rfl | cases silent

theorem act_toCome {e : Engine σ} (h : toCome e.trace = []) (a : Act σ) :
    toCome (e.act a).trace = [] :=
  Desk.course_toCome (act_course Rules.free_lenient (e.allows_free a)) (look_toCome h a)

theorem run_toCome (g : FileGraph) (options : EngineOptions) (site : σ) (dawn : Nat)
    (acts : List (Act σ)) : toCome ((fresh g options site dawn).run acts).trace = [] :=
  run_preserves (P := fun e => toCome e.trace = []) (fun a _ _ h => act_toCome h a) rfl

/-- What an engine had to do at a moment is resumed by the last snapshot, as far as it is not over.
A master that waited may be excused, or its turn is still to come. -/
def Recoverable (e : Engine σ) (p : Path) (gone : Path → Prop) (trace : List Event) : Prop :=
  (∀ j ∈ e.jobs, Resumable j.path p trace ∨ Over j.id e.trace trace) ∧
    ∀ m, e.pending.contains m = true →
      Resumable m p trace ∨ Excused m (gone m) e.trace trace ∨ Overtaken m trace

/-- A master that is minded through a whole call is resumed or excused after every write of it and
at its end. -/
theorem act_safe {e : Engine σ} {a : Act σ} {excuse : List Event → Prop}
    (secured : (e.desk .steady true).Secured p g) (calm : Undisturbed p g (e.act a).trace)
    (lasts : ∀ events trace, (∀ event ∈ events, event.toCome? = none) → excuse trace →
      excuse (events ++ trace))
    (minded : ∀ b, Desk.Course Rules.free ((e.look a).desk .steady true) b → b.Minded m excuse) :
    ((e.act a).desk .steady true).Safe p m excuse e.trace ∧
      (Resumable m p (e.act a).trace ∨ excuse (e.act a).trace) := by
  have course := act_course Rules.free_lenient (e.allows_free a)
  constructor
  · exact Desk.course_safe course calm (look_secured secured a) lasts minded (e.look_safe a excuse)
  · exact (minded _ course).resumes Stage.maySave_steady rfl (act_secured calm secured)

/-- An active job is resumed after every write of a call and at its end, until it is over. -/
theorem job_safe {e : Engine σ} {a : Act σ} (secured : (e.desk .steady true).Secured p g)
    (calm : Undisturbed p g (e.act a).trace) {j : Job} (hj : j ∈ e.jobs) :
    ((e.act a).desk .steady true).Safe p j.path (Over j.id e.trace) e.trace ∧
      (Resumable j.path p (e.act a).trace ∨ Over j.id e.trace (e.act a).trace) := by
  have follows : ((e.look a).desk .steady true).Follows j.id j.path e.trace := by
    obtain ⟨graph, site, events, -, same⟩ := e.look_desk .steady a
    rw [same]
    exact .inl ⟨j, hj, rfl, Path.beq_iff.mpr rfl⟩
  refine act_safe secured calm (fun events _ _ ended => ended.append events) fun b first => ?_
  exact (Desk.course_follows first (look_secured secured a).sane (e.look_grows a) follows).minded

/-- A master that waits is resumed after every write of a call and at its end, unless it is excused
or its turn is still to come. -/
theorem waiting_safe {e : Engine σ} {a : Act σ} (secured : (e.desk .steady true).Secured p g)
    (calm : Undisturbed p g (e.act a).trace) (none_ : toCome e.trace = [])
    (waits : e.pending.contains m = true) :
    let excuse trace :=
      Excused m ((e.act a).graph.isMaster m = false) e.trace trace ∨ Overtaken m trace
    ((e.act a).desk .steady true).Safe p m excuse e.trace ∧
      (Resumable m p (e.act a).trace ∨ excuse (e.act a).trace) := by
  have heeded : ((e.look a).desk .steady true).Heeded (Desk.Renewed m e.trace) m e.trace := by
    obtain ⟨graph, site, events, -, same⟩ := e.look_desk .steady a
    rw [same]
    exact .waits waits
  have same_masters : (e.act a).graph.isMaster m = (e.look a).graph.isMaster m :=
    Desk.course_isMaster (act_course Rules.free_lenient (e.allows_free a)) m
  refine act_safe secured calm (fun events _ silent excused => ?_) fun b first => ?_
  · exact excused.imp (fun old => old.append events) fun ahead => ahead.append events silent
  · have there := (Desk.course_renewed first (look_secured secured a).sane (e.look_grows a) rfl
      heeded).minded (Desk.course_toCome first (look_toCome none_ a))
    have same : b.graph.isMaster m = (e.act a).graph.isMaster m :=
      (Desk.course_isMaster first m).trans same_masters.symm
    rwa [same] at there

/-- In every run that keeps its snapshot, whatever the engine is asked for next: if it dies right
after a write, the last snapshot resumes every job that was active before the call and is not over,
and every master that waited, unless its new job is over, it was no master when its turn came, or
the waiting masters are being taken up and its turn is still to come. Where the call ends, the same
holds and no turn is to come. -/
theorem run_resumes_after_crash {options : EngineOptions} {site : σ} {dawn : Nat}
    (kept : options.statePath = some p) (acts : List (Act σ)) (a : Act σ)
    (calm : Undisturbed p g (((fresh g options site dawn).run acts).act a).trace) :
    let e := (fresh g options site dawn).run acts
    let now := e.act a
    let gone m := now.graph.isMaster m = false
    (∀ q content earlier, .wrote q content :: earlier <:+ now.trace → e.trace <:+ earlier →
      e.Recoverable p gone (.wrote q content :: earlier)) ∧
      e.Recoverable p gone now.trace ∧ toCome now.trace = [] := by
  intro e now gone
  have secured : (e.desk .steady true).Secured p g :=
    run_secured acts (calm.suffix (e.act_grows a)) (fresh_secured kept site dawn)
  have none_ : toCome e.trace = [] := run_toCome g options site dawn acts
  refine ⟨fun q content earlier within old => ⟨fun j hj => ?_, fun m waits => ?_⟩,
    ⟨fun j hj => ?_, fun m waits => ?_⟩, act_toCome none_ a⟩
  · exact (job_safe secured calm hj).1 q content earlier within old
  · exact (waiting_safe secured calm none_ waits).1 q content earlier within old
  · exact (job_safe secured calm hj).2
  · exact (waiting_safe secured calm none_ waits).2

/-- Two masters are asked for while the stories are in use. -/
def parkedRun : List (Act Sandbox) :=
  [.setMode .restricted 0, .compileFile (.ofText "x.ink") false,
    .compileFile (.ofText "a.ink") false]

/-- Back to editing, the second master is in no snapshot from the time at which the first is queued
until its own turn comes. -/
theorem return_to_editing_overtakes :
    let p := Path.ofText "queue.json"
    let e := (fresh twoOwners { statePath := some p } twoOwnersSite 0).run parkedRun
    let now := e.act (.exitRestricted 0)
    let left : Snapshot := { active := [⟨"x.ink", .queued, none⟩] }
    let m := Path.ofText "a.ink"
    ∃ q earlier, .wrote q left.render.toUTF8 :: earlier <:+ now.trace ∧ e.trace <:+ earlier ∧
      e.pending.contains m = true ∧ Overtaken m (.wrote q left.render.toUTF8 :: earlier) ∧
      e.Recoverable p (fun m => now.graph.isMaster m = false)
        (.wrote q left.render.toUTF8 :: earlier) := by
  intro p e now left m
  have calm : Undisturbed p twoOwners now.trace := by decide +kernel
  have waits : e.pending.contains m = true := by decide +kernel
  have written : (now.trace[8]?).bind (Event.writtenTo? p) = some left.render.toUTF8 := by
    decide +kernel
  have lengths : e.trace.length ≤ (now.trace.drop 9).length := by decide +kernel
  have behind : Overtaken m (now.trace.drop 9) := by decide +kernel
  obtain ⟨event, there, content⟩ := Option.bind_eq_some_iff.mp written
  obtain ⟨q, rfl⟩ := Event.eq_wrote content
  obtain ⟨long, same⟩ := List.getElem?_eq_some_iff.mp there
  have within : .wrote q left.render.toUTF8 :: now.trace.drop 9 <:+ now.trace := by
    rw [← same, ← List.drop_eq_getElem_cons long]
    exact List.drop_suffix 8 _
  have old : e.trace <:+ now.trace.drop 9 :=
    List.suffix_of_suffix_length_le (e.act_grows _) (List.drop_suffix 9 _) lengths
  exact ⟨q, _, within, old, waits, behind.wrote q _,
    (run_resumes_after_crash (by rfl) parkedRun _ calm).1 q _ _ within old⟩

end Engine

end StoryBuild
