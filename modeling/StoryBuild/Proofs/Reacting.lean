import StoryBuild.Proofs.FileOrder
import StoryBuild.Proofs.Promotion

namespace StoryBuild

namespace Desk

variable {σ : Type} [Workshop σ] {R : Rules} {K J : Desk σ → Prop} {c d : Desk σ} {m : Path}
  {call : List Event}

/-- Under an invariant, a queued job of a master brings something about, and every step keeps it. -/
structure Lasting (R : Rules) (K J : Desk σ → Prop) (m : Path) : Prop where
  sane : ∀ {d}, K d → d.Sane
  step : ∀ {c d}, Step R c d → K c → K d
  keeps : ∀ {c d}, Step R c d → K c → J c → J d
  queued : ∀ {d : Desk σ} {j}, K d → j ∈ d.jobs → j.isQueued = true → (j.path == m) = true → J d
  unsaved : ∀ {d : Desk σ} {saved}, J d → J { d with saved }

namespace Lasting

/-- It does not matter how a master is spelled. -/
theorem congr {x : Path} (h : Lasting R K J m) (same : x.parts = m.parts) : Lasting R K J x where
  sane := h.sane
  step := h.step
  keeps := h.keeps
  queued inv hj waits mine :=
    h.queued inv hj waits (Path.beq_iff.mpr ((Path.beq_iff.mp mine).trans same))
  unsaved := h.unsaved

theorem invariant (h : Lasting R K J m) (course : Course R c d) (inv : K c) : K d :=
  course_preserves h.step course inv

theorem course (h : Lasting R K J m) (course : Course R c d) (inv : K c) (job : J c) : J d := by
  induction course with
  | refl => exact job
  | tail first step ih => exact h.keeps step (h.invariant first inv) ih

theorem heeded (h : Lasting R K J m) (course : Course R c d) (inv : K c)
    (within : call <:+ c.trace) (opened : c.stage ≠ .steady → Opened call c.trace)
    (heeded : c.Heeded J m call) : d.Heeded J m call := by
  have kept : call <:+ d.trace ∧ (d.stage ≠ .steady → Opened call d.trace) ∧
      d.Heeded J m call := by
    induction course with
    | refl => exact ⟨within, opened, heeded⟩
    | tail first step ih =>
      obtain ⟨within, opened, heeded⟩ := ih
      have inv' := h.invariant first inv
      exact ⟨within.trans (step_grows step), step_opens step within opened,
        step_heeded step (h.sane inv') opened (h.keeps step inv')
          (fun j hj waits mine _ => h.queued (h.step step inv') hj waits mine) heeded⟩
  exact kept.2.2

end Lasting

end Desk

namespace Engine

variable {σ : Type} [Workshop σ] {R : Rules} {K J : Desk σ → Prop} {m : Path} {call : List Event}

/-- The masters that a change affects are those that the graph reports. -/
theorem sourceChanged_masters (e : Engine σ) (p : Path) :
    (e.sourceChanged p).1 = (e.graph.refresh e.site p).1 := by
  unfold sourceChanged
  dsimp only
  split <;> rfl

variable (lenient : R.Lenient) (lasting : Desk.Lasting R K J m)

include lenient lasting

/-- An accepted request brings about what a queued job does. -/
theorem enqueue_lasts {e : Engine σ} (saved : Bool) (inv : K (e.desk .steady saved))
    (editing : e.mode = .editing) (h : e.refusal? m = none) :
    J ((e.enqueue m false).2.desk .steady true) := by
  have added : Desk.Course R (e.desk .steady saved) ((e.addJob m false).desk .steady true) :=
    addJob_course false saved .steady (lenient.queue _ editing) h
  have jobs : (e.addJob m false).jobs = e.jobs ++ [e.newJob m false] :=
    congrArg Core.jobs (e.addJob_core m false)
  have inv' := lasting.invariant added inv
  have queued : J ((e.addJob m false).desk .steady true) := by
    refine lasting.queued (j := e.newJob m false) inv' ?_ rfl (Path.beq_iff.mpr rfl)
    change _ ∈ (e.addJob m false).jobs
    rw [jobs]
    exact List.mem_append_right _ (List.mem_singleton.mpr rfl)
  have started := lasting.course (drain_course Stage.maySave_steady (e.addJob m false) e.clock)
    inv' queued
  simpa only [enqueue, enqueueAt, submit, h, Bool.false_eq_true, if_false] using started

/-- The master that has its turn is heeded. -/
theorem reactTo_heeded {e : Engine σ} (parked saved saved' : Bool) (inv : K (e.desk .steady saved))
    (is_master : e.graph.isMaster m = true) (automatic : e.options.manualOnly m = false) :
    ((reactTo (parked, e) m).2.desk .steady saved').Heeded J m call := by
  unfold reactTo
  dsimp only
  rw [if_neg (by simp [automatic])]
  split
  next => exact .waits (Pending.contains_push.mpr (.inr rfl))
  next free =>
    simp only [Bool.or_eq_true, not_or] at free
    have editing := editing_of_open free.1
    have accepted := refusal_none_of_free is_master (by simpa using free.2)
    have lasts := enqueue_lasts lenient lasting saved inv editing accepted
    have answer : (e.enqueue m false).1 = .ok e.nextId :=
      (enqueueAt_course lenient false saved e.clock (lenient.queue _ editing) accepted).1
    generalize e.enqueue m false = result at answer lasts
    obtain ⟨_, after⟩ := result
    cases answer
    exact .job (lasting.unsaved lasts)

theorem reactAll_heeded (masters : List Path) {e : Engine σ} (parked saved saved' : Bool)
    (open_ : saved = false → parked = true) (inv : K (e.desk .steady saved))
    (within : call <:+ e.trace) (is_master : e.graph.isMaster m = true)
    (automatic : e.options.manualOnly m = false)
    (owed : m ∈ masters ∨ (e.desk .steady saved).Heeded J m call) :
    ((masters.foldl reactTo (parked, e)).2.desk .steady saved').Heeded J m call := by
  induction masters generalizing e parked saved with
  | nil =>
    cases owed.resolve_left List.not_mem_nil with
    | waits h => exact .waits h
    | left stage mem same => exact .left stage mem same
    | faced stage mem same => exact .faced stage mem same
    | job h => exact .job (lasting.unsaved h)
    | gone h opened => exact .gone h opened
  | cons x rest ih =>
    obtain ⟨saved'', course, open'⟩ := reactTo_course lenient parked saved e x open_
    have options : (reactTo (parked, e) x).2.options = e.options := Desk.course_options course
    have automatic' : (reactTo (parked, e) x).2.options.manualOnly m = false := by
      rw [options]
      exact automatic
    refine ih (reactTo (parked, e) x).1 saved'' open' (lasting.invariant course inv)
      (within.trans (Desk.course_grows course)) ((Desk.course_isMaster course m).trans is_master)
      automatic' ?_
    rcases owed with mem | heeded
    · rcases List.mem_cons.mp mem with rfl | mem
      · exact .inr (reactTo_heeded lenient lasting parked saved saved'' inv is_master automatic)
      · exact .inl mem
    · exact .inr (lasting.heeded course inv within (fun moving => absurd rfl moving) heeded)

/-- A master that a change affects is heeded as soon as the change is known. -/
theorem sourceChanged_heeded {e : Engine σ} {p : Path}
    (inv : K ((e.look (.sourceChanged p)).desk .steady true)) (order : InPathOrder e.graph.files)
    (on : e.options.compileOnChange = true) (affected : m ∈ (e.graph.refresh e.site p).1)
    (automatic : e.options.manualOnly m = false) (within : call <:+ e.trace) :
    ((e.sourceChanged p).2.desk .steady true).Heeded J m call := by
  have is_master := FileGraph.refresh_isMaster order e.site affected
  have looked := within.trans (e.look_grows (.sourceChanged p))
  have owed (saved : Bool) := reactAll_heeded lenient lasting (e.graph.refresh e.site p).1
    (e := e.look (.sourceChanged p)) false true saved (by simp) inv looked is_master automatic
    (.inl affected)
  obtain ⟨saved, course, -⟩ := reactAll_course lenient (e.graph.refresh e.site p).1 false true
    (e.look (.sourceChanged p)) (by simp)
  have changed : (e.sourceChanged p).2 =
      if ((e.graph.refresh e.site p).1.foldl reactTo (false, e.look (.sourceChanged p))).1 then
        ((e.graph.refresh e.site p).1.foldl reactTo (false, e.look (.sourceChanged p))).2.persist
      else
        ((e.graph.refresh e.site p).1.foldl reactTo (false, e.look (.sourceChanged p))).2 := by
    have on' : (e.look (.sourceChanged p)).options.compileOnChange = true := on
    unfold look at on' ⊢
    unfold sourceChanged
    dsimp only at on' ⊢
    rw [if_pos on']
  rw [changed]
  generalize (e.graph.refresh e.site p).1.foldl reactTo (false, e.look (.sourceChanged p)) = done
    at owed course
  split
  next =>
    exact lasting.heeded (persist_course Stage.maySave_steady done.2 saved)
      (lasting.invariant course inv) (looked.trans (Desk.course_grows course))
      (fun moving => absurd rfl moving) (owed saved)
  next => exact owed true

/-- A master that a change affects waits, or its job has come about, once the change is known. -/
theorem sourceChanged_lasts {e : Engine σ} {p : Path}
    (inv : K ((e.look (.sourceChanged p)).desk .steady true)) (order : InPathOrder e.graph.files)
    (on : e.options.compileOnChange = true) (affected : m ∈ (e.sourceChanged p).1)
    (automatic : e.options.manualOnly m = false) :
    (e.sourceChanged p).2.pending.contains m = true ∨
      J ((e.sourceChanged p).2.desk .steady true) := by
  rw [sourceChanged_masters] at affected
  have heeded := sourceChanged_heeded lenient lasting inv order on affected automatic
    (List.suffix_refl e.trace)
  have same_masters : (e.sourceChanged p).2.graph.isMaster m = _ :=
    Desk.course_isMaster (act_course Rules.free_lenient (e.allows_free (.sourceChanged p))) m
  have still_master := same_masters.trans (FileGraph.refresh_isMaster order e.site affected)
  exact heeded.of_master rfl still_master

end Engine

end StoryBuild
