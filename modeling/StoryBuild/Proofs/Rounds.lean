import StoryBuild.Proofs.RecordedOutcomes

namespace StoryBuild

/-- How often a compile will wait. -/
def Script.hangs : Script → Nat
  | hang _ _ next => next.hangs + 1
  | _ => 0

theorem Script.play_hangs {σ : Type} [Storage σ] {script next : Script} {s : σ} {r : Request}
    {before lines : List String} {deaf : Bool}
    (waits : script.play s r false false before = .waiting lines deaf next) :
    next.hangs < script.hangs := by
  cases script with
  | hang lines' deaf' next' =>
    obtain ⟨-, -, rfl⟩ : before ++ lines' = lines ∧ deaf' = deaf ∧ next' = next := by
      simpa [play] using waits
    exact Nat.lt_succ_self _
  | _ => cases waits

/-- How many turns a worker has left. -/
def Worker.turns (w : Worker) : Nat :=
  match w.state with
  | .waiting _ _ next => next.hangs + 2
  | _ => 1

theorem Job.finish_queued {jobs : List Job} (id : Nat) (o : Outcome) (now : Nat) :
    ((jobs.map fun k => if k.id == id then k.finish o now else k).filter isQueued).Sublist
      (jobs.filter isQueued) := by
  induction jobs with
  | nil => exact .slnil
  | cons j rest ih =>
    rw [List.map_cons]
    split
    next =>
      rw [List.filter_cons_of_neg (show ¬ (j.finish o now).isQueued = true from nofun)]
      exact ih.trans ((List.sublist_cons_self j rest).filter isQueued)
    next =>
      cases queued : j.isQueued with
      | true =>
        rw [List.filter_cons_of_pos queued, List.filter_cons_of_pos queued]
        exact ih.cons_cons j
      | false =>
        rw [List.filter_cons_of_neg (by simp [queued]), List.filter_cons_of_neg (by simp [queued])]
        exact ih

namespace Core.Drains

variable {now : Nat} {ids : List Nat} {c d : Core}

/-- At the end, a core at rest has started all it has. -/
theorem drained (h : Drains now ids c d) (rests : d.Rests) :
    ∀ j ∈ d.jobs, j.isQueued = false := by
  induction h with
  | done drained => exact drained rests
  | next _ _ _ _ ih => exact ih rests

theorem fewer (h : Drains now ids c d) :
    d.jobs.countP Job.isQueued ≤ c.jobs.countP Job.isQueued ∧
      (c.Rests → (∃ j ∈ c.jobs, j.isQueued = true) →
        d.jobs.countP Job.isQueued < c.jobs.countP Job.isQueued) := by
  induction h with
  | done drained =>
    refine ⟨Nat.le_refl _, fun rests ⟨j, hj, queued⟩ => ?_⟩
    simp [drained rests j hj] at queued
  | next _ first start _ ih =>
    have less := start.fewer (List.find?_some first)
    exact ⟨Nat.le_of_lt (Nat.lt_of_le_of_lt ih.1 less), fun _ _ => Nat.lt_of_le_of_lt ih.1 less⟩

end Core.Drains

namespace Engine

variable {e d : Engine Sandbox} {ms : List Path} {w : Worker}

/-- How many turns the worker that is out has left. -/
def turns (d : Engine Sandbox) : Nat :=
  (d.inFlight.map Worker.turns).getD 0

theorem collect_queued (d : Engine Sandbox) (now : Nat) :
    ((d.collect now).jobs.filter Job.isQueued).Sublist (d.jobs.filter Job.isQueued) := by
  have ended {f : Engine Sandbox} (jobs : f.jobs = d.jobs) (id : Nat) (o : Outcome) :
      ((f.finishJob id o now).jobs.filter Job.isQueued).Sublist (d.jobs.filter Job.isQueued) := by
    rw [← jobs]
    cases found : f.jobs.find? fun k => k.id == id && k.isCompiling with
    | none =>
      rw [finishJob_idle found]
    | some j =>
      have after : (f.finishJob id o now).jobs =
          f.jobs.map fun k => if k.id == id then k.finish o now else k :=
        congrArg Core.jobs (finishJob_core found o now)
      rw [after]
      exact Job.finish_queued id o now
  unfold collect
  split
  next => exact .refl _
  next =>
    dsimp only
    split
    next => exact .refl _
    next => exact ended (by rfl) _ _
    next => exact ended (by rfl) _ _

theorem at_end_of_free (free : d.inFlight = none) :
    ∀ w, d.inFlight = some w → w.isWaiting = false :=
  fun w out => absurd (out.symm.trans free) (Option.some_ne_none w)

/-- A worker that does not wait is out no longer once its result is taken in. -/
theorem collect_free (at_end : ∀ w, d.inFlight = some w → w.isWaiting = false) (now : Nat) :
    (d.collect now).inFlight = none := by
  unfold collect
  split
  next out => exact out
  next w out =>
    dsimp only
    split
    next state =>
      have waits := at_end w out
      simp [Worker.isWaiting, state] at waits
    next => exact finishJob_inFlight ..
    next => exact finishJob_inFlight ..

theorem Pledges.rests (h : e.Pledges d ms) (free : d.inFlight = none) : d.core.Rests := by
  refine ⟨fun j hj => ?_, by simp [core, free]⟩
  cases compiling : j.isCompiling with
  | false => rfl
  | true =>
    obtain ⟨w, -, out, -⟩ := (h.each j hj).compiling compiling
    cases free.symm.trans out

/-- A worker that is let go has fewer turns left if it still waits. -/
theorem resume_turns {w' : Worker} (d : Engine Sandbox)
    (left : (d.resume false w).1 = some w') :
    w'.turns ≤ w.turns ∧ (w'.isWaiting = true → w'.turns < w.turns) := by
  unfold resume at left
  split at left
  next lines deaf next state =>
    have before : w.turns = next.hangs + 2 := by simp [Worker.turns, state]
    split at left
    next =>
      obtain rfl := Option.some.inj left
      refine ⟨?_, fun waits => (nomatch waits)⟩
      rw [before]
      exact Nat.le_add_left 1 _
    next waits =>
      obtain rfl := Option.some.inj left
      have fewer := Nat.add_lt_add_right (Script.play_hangs waits) 2
      rw [before]
      exact ⟨Nat.le_of_lt fewer, fun _ => fewer⟩
    next => cases left
  next other =>
    obtain rfl := Option.some.inj left
    refine ⟨Nat.le_refl _, fun waits => ?_⟩
    cases state : w.state with
    | waiting lines deaf next => exact absurd state (other lines deaf next)
    | _ => simp [Worker.isWaiting, state] at waits

theorem release_inFlight (d : Engine Sandbox) :
    ∃ f : Engine Sandbox,
      (d.release none).inFlight = d.inFlight.bind fun w => (f.resume false w).1 := by
  obtain ⟨trace, freed⟩ := resumeStrays_trace
    (fun w => (none : Option Path).all fun p => w.request.master == p) d.strays d
  unfold release
  dsimp only
  rw [freed]
  generalize (d.resumeStrays _ d.strays).1 = strays
  refine ⟨{ d with strays, trace }, ?_⟩
  split
  next w out =>
    rw [show d.inFlight = some w from out]
    rfl
  next out => rw [show d.inFlight = none from out, Option.bind_none]

theorem release_turns (d : Engine Sandbox) :
    (d.release none).turns ≤ d.turns ∧
      ∀ w, (d.release none).inFlight = some w → w.isWaiting = true →
        (d.release none).turns < d.turns := by
  obtain ⟨f, freed⟩ := d.release_inFlight
  unfold turns
  rw [freed]
  cases d.inFlight with
  | none => exact ⟨Nat.le_refl _, fun w same => nomatch same⟩
  | some w =>
    rw [Option.bind_some]
    cases left : (f.resume false w).1 with
    | none => exact ⟨Nat.zero_le _, fun w same => nomatch same⟩
    | some w' =>
      obtain ⟨le, lt⟩ := resume_turns _ left
      refine ⟨le, fun v same waits => ?_⟩
      obtain rfl := Option.some.inj same
      exact lt waits

/-- The batch ends unless there is work left in it. -/
theorem settle_end (none_waits : d.pending.order = []) (undeferred : d.deferredEntry = false)
    (now : Nat) : (d.settle now).2.isBusy = false ∨
      (d.settle now).2 = d ∧ (d.isCompiling || d.hasQueued) = true := by
  unfold settle
  split
  next =>
    obtain ⟨site, suspended, trace, -, ended⟩ := endBatch_eq undeferred
    dsimp only
    rw [closeBatch_of_none_waits none_waits, ended]
    exact .inl rfl
  next work =>
    cases busy : d.isBusy with
    | false => exact .inl rfl
    | true =>
      simp only [busy, Bool.and_true, ← Bool.not_or, Bool.not_eq_true', Bool.not_eq_false] at work
      exact .inr ⟨rfl, work⟩

/-- As long as the worker waits, a look ends the batch or changes nothing. -/
theorem pollAt_waiting {now : Nat} (h : e.Pledges d ms) (out : d.inFlight = some w)
    (waits : w.isWaiting = true) (in_time : (d.pollAt now).1.timedOut = []) :
    (d.pollAt now).2.isBusy = false ∨ (d.pollAt now).2 = d := by
  have collected : d.collect now = d := by
    unfold collect
    rw [out]
    dsimp only
    split
    next => rfl
    next state => simp [Worker.isWaiting, state] at waits
    next state => simp [Worker.isWaiting, state] at waits
  have drained : (d.drain now).2 = d := by
    unfold drain
    cases d.jobs.length with
    | zero => rfl
    | succ n => rw [drainLoop, if_pos (by simp [out])]
  have before : d.beforeEnd now = d := by
    unfold beforeEnd
    rw [expire_of_in_time in_time, collected]
    unfold advance
    split
    next => exact drained
    next => rfl
  rw [pollAt_after, before]
  exact (settle_end h.none_waits h.undeferred now).imp_right And.left

/-- If no worker waits, a look ends the batch or starts a job. -/
theorem pollAt_free {now : Nat} (h : e.Pledges d ms)
    (at_end : ∀ w, d.inFlight = some w → w.isWaiting = false)
    (in_time : (d.pollAt now).1.timedOut = []) :
    (d.pollAt now).2.isBusy = false ∨
      (d.pollAt now).2.jobs.countP Job.isQueued < d.jobs.countP Job.isQueued := by
  have collected := collect_pledges h now
  have rests := collected.rests (collect_free at_end now)
  have idle := (idle_iff.mp rests).1
  have fewer : (d.collect now).jobs.countP Job.isQueued ≤ d.jobs.countP Job.isQueued := by
    rw [List.countP_eq_length_filter, List.countP_eq_length_filter]
    exact (d.collect_queued now).length_le
  have kept : d.beforeEnd now = ((d.collect now).advance now).2 := by
    unfold beforeEnd
    rw [expire_of_in_time in_time]
  have before : e.Pledges (d.beforeEnd now) ms := kept ▸ advance_pledges collected now
  rw [pollAt_after]
  refine (settle_end before.none_waits before.undeferred now).imp_right fun ⟨same, work⟩ => ?_
  rw [same]
  cases queued : (d.collect now).hasQueued with
  | true =>
    have advanced : d.beforeEnd now = ((d.collect now).drain now).2 := by
      rw [kept, advance, if_pos (by simp [idle, queued])]
    have less := (drain_drains collected.sane.kept.ordered now).fewer.2 rests
      (List.any_eq_true.mp queued)
    rw [advanced]
    exact Nat.lt_of_lt_of_le less fewer
  | false =>
    have advanced : d.beforeEnd now = d.collect now := by
      rw [kept, advance, if_neg (by simp [queued])]
    simp [advanced, idle, queued] at work

/-- Some rounds of waiting, with looks at the given times. -/
def rounds (times : Nat → Nat) : Nat → List (Act Sandbox)
  | 0 => []
  | n + 1 => .release none :: .poll (times 0) :: rounds (fun i => times (i + 1)) n

/-- In one round the batch ends, a job is started, or the worker has fewer turns left. -/
theorem round_onward {now : Nat} (h : e.Pledges d ms)
    (in_time : ((d.release none).pollAt now).1.timedOut = []) :
    let after := ((d.release none).pollAt now).2
    after.isBusy = false ∨ after.jobs.countP Job.isQueued < d.jobs.countP Job.isQueued ∨
      after.jobs.countP Job.isQueued = d.jobs.countP Job.isQueued ∧ after.turns < d.turns := by
  have freed := release_pledges h none
  obtain ⟨jobs, -, -⟩ := d.release_worker none
  by_cases waits : ∃ w, (d.release none).inFlight = some w ∧ w.isWaiting = true
  · obtain ⟨w, out, waits⟩ := waits
    have less := d.release_turns.2 w out waits
    rcases pollAt_waiting freed out waits in_time with ended | same
    · exact .inl ended
    · dsimp only
      rw [same, jobs]
      exact .inr (.inr ⟨rfl, less⟩)
  · have at_end : ∀ w, (d.release none).inFlight = some w → w.isWaiting = false :=
      fun w out => Bool.eq_false_iff.mpr fun waiting => waits ⟨w, out, waiting⟩
    rcases pollAt_free freed at_end in_time with ended | less
    · exact .inl ended
    · rw [jobs] at less
      exact .inr (.inl less)

/-- If no look gives a compile up, the rounds come to an end. -/
theorem rounds_end {d : Engine Sandbox} (order : InPathOrder e.graph.files) (times : Nat → Nat)
    (h : e.Pledges d ms ∨ e.Recorded d ms) (in_time : ∀ n, d.punctual (rounds times n) = true) :
    ∃ n, (d.run (rounds times n)).isBusy = false := by
  rcases h with pledges | recorded
  · have later : e.Pledges (d.run (rounds times 1)) ms ∨ e.Recorded (d.run (rounds times 1)) ms :=
      run_pledges order (.inl pledges) (in_time 1)
    have first : ((d.release none).pollAt (times 0)).1.timedOut = [] := by
      have both := in_time 1
      simp only [rounds, punctual, isPunctual, Bool.true_and, Bool.and_true] at both
      exact List.isEmpty_iff.mp both
    have others (n : Nat) :
        (d.run (rounds times 1)).punctual (rounds (fun i => times (i + 1)) n) = true := by
      have whole := in_time (n + 1)
      simp only [rounds, punctual, Bool.and_eq_true] at whole
      exact whole.2.2
    have goes_on := round_onward pledges first
    by_cases ended : (d.run (rounds times 1)).isBusy = false
    · exact ⟨1, ended⟩
    · have onward := goes_on.resolve_left ended
      obtain ⟨n, ended⟩ := rounds_end order (fun i => times (i + 1)) later others
      exact ⟨n + 1, ended⟩
  · exact ⟨0, recorded.idle⟩
termination_by (d.jobs.countP Job.isQueued, d.turns)
decreasing_by
  exact Prod.lex_def.mpr onward

end Engine

end StoryBuild
