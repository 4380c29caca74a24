import StoryBuild.Proofs.Calls
import StoryBuild.Proofs.Courses

namespace StoryBuild.Engine

variable {σ : Type} [Workshop σ] {R : Rules} {stage : Stage}

theorem resume_course (e : Engine σ) (stray : Bool) (w : Worker) (saved : Bool) :
    Desk.Course R (e.desk stage saved) ((e.resume stray w).2.desk stage saved) := by
  unfold resume
  split
  next =>
    split
    next => exact .refl
    next => exact .refl
    next => exact note_course rfl e saved
  next => exact .refl

theorem resumeStrays_course (chosen : Worker → Bool) (strays : List Worker) (e : Engine σ)
    (saved : Bool) :
    Desk.Course R (e.desk stage saved) ((e.resumeStrays chosen strays).2.desk stage saved) := by
  induction strays generalizing e with
  | nil => exact .refl
  | cons w rest ih =>
    unfold resumeStrays
    split
    next => exact (e.resume_course true w saved).trans (ih _)
    next => exact ih e

theorem resume_kept_course {e : Engine σ} {w : Worker} (out : e.inFlight = some w) (saved : Bool) :
    Desk.Course R (e.desk stage saved)
      ({ (e.resume false w).2 with inFlight := (e.resume false w).1 }.desk stage saved) := by
  have kept := resume_keeps e w
  have same : (e.resume false w).2.inFlight = some w := by
    unfold resume
    split
    next => split <;> exact out
    next => exact out
  have desk_eq : ({ (e.resume false w).2 with inFlight := (e.resume false w).1 } :
      Engine σ).desk stage saved = (e.resume false w).2.desk stage saved := by
    simp only [desk, kept, same, Option.map_some]
  rw [desk_eq]
  exact e.resume_course false w saved

theorem release_course (e : Engine σ) (master : Option Path) (saved : Bool) :
    Desk.Course R (e.desk stage saved) ((e.release master).desk stage saved) := by
  unfold release
  dsimp only
  have freed (chosen : Worker → Bool) : Desk.Course R (e.desk stage saved)
      ((e.resumeStrays chosen e.strays).2.desk stage saved) :=
    resumeStrays_course chosen e.strays e saved
  have freed' := freed fun w => master.all fun p => w.request.master == p
  generalize e.resumeStrays _ e.strays = result at freed'
  split
  next w h =>
    split
    next =>
      exact freed'.trans (resume_kept_course (e := { result.2 with strays := result.1 }) h saved)
    next => exact freed'
  next => exact freed'

omit [Workshop σ] in
theorem editing_of_open {e : Engine σ} (h : ¬ (e.mode == .restricted) = true) :
    e.mode = .editing :=
  editing_of_not_restricted h

theorem park_course {e : Engine σ} (master : Path) (saved : Bool)
    (must : e.mode = .restricted ∨ ∃ k ∈ e.jobs, (k.path == master) = true) :
    Desk.Course R (e.desk .steady saved)
      ((e.park master).2.desk .steady (saved && !(e.park master).1)) :=
  .single (.park master rfl must)

theorem park_persist_course {e : Engine σ} (master : Path)
    (must : e.mode = .restricted ∨ ∃ k ∈ e.jobs, (k.path == master) = true) :
    Desk.Course R (e.desk .steady true)
      ((if (e.park master).1 then (e.park master).2.persist else (e.park master).2).desk
        .steady true) :=
  (park_course master true must).trans (persist_if_course Stage.maySave_steady _ _)

theorem parkAll_course {e : Engine σ} (masters : List Path) (restricted : e.mode = .restricted) :
    Desk.Course R (e.desk .steady true)
      ((e.parkAll masters).2.desk .steady (!(e.parkAll masters).1)) := by
  unfold parkAll
  rw [← Bool.not_false]
  generalize false = parked
  induction masters generalizing e parked with
  | nil => exact .refl
  | cons p rest ih =>
    have first : Desk.Course R (e.desk .steady (!parked)) _ :=
      park_course p (!parked) (.inl restricted)
    rw [← Bool.not_or] at first
    have kept : (e.park p).2.mode = .restricted := restricted
    exact first.trans (ih kept _)

section Lenient

variable (lenient : R.Lenient)

include lenient

/-- After a request by an engine that is editing, work that was not in a snapshot before still may
be out of it only if the request was refused. -/
theorem enqueue_open_course {e : Engine σ} (master : Path) (saved : Bool)
    (editing : e.mode = .editing) :
    ∃ saved', Desk.Course R (e.desk .steady saved)
      ((e.enqueue master false).2.desk .steady saved') ∧ (saved' = false → saved = false) := by
  unfold enqueue
  cases h : e.refusal? master with
  | none =>
    obtain ⟨_, course⟩ := enqueueAt_course lenient false saved e.clock (lenient.queue _ editing) h
    exact ⟨true, course, by simp⟩
  | some refusal =>
    obtain ⟨answer, course⟩ := enqueueAt_refused_course (R := R) .steady false saved
      e.clock h
    rw [answer]
    exact ⟨saved, course, id⟩

theorem reactTo_course (parked saved : Bool) (e : Engine σ) (master : Path)
    (open_ : saved = false → parked = true) :
    ∃ saved', Desk.Course R (e.desk .steady saved)
      ((reactTo (parked, e) master).2.desk .steady saved') ∧
      (saved' = false → (reactTo (parked, e) master).1 = true) := by
  unfold reactTo
  dsimp only
  split
  next => exact ⟨saved, .refl, open_⟩
  next =>
    split
    next busy =>
      have must : e.mode = .restricted ∨ ∃ k ∈ e.jobs, (k.path == master) = true := by
        simpa [hasActiveJob] using busy
      refine ⟨_, park_course _ saved must, ?_⟩
      intro unsaved
      -- What is unsaved now was so before, or the master waits anew.
      cases hs : saved with
      | false => rw [open_ hs]; rfl
      | true =>
        rw [hs] at unsaved
        simpa using Or.inr (a := parked = true) (by simpa using unsaved)
    next free =>
      simp only [Bool.or_eq_true, not_or] at free
      obtain ⟨saved', course, kept⟩ :=
        enqueue_open_course lenient master saved (editing_of_open free.1)
      split
      next h =>
        rw [h] at course
        exact ⟨saved', course, fun unsaved => open_ (kept unsaved)⟩
      next h =>
        rw [h] at course
        exact ⟨saved', course.trans (warn_course _ _ saved'), fun unsaved => open_ (kept unsaved)⟩

theorem reactAll_course (masters : List Path) (parked saved : Bool) (e : Engine σ)
    (open_ : saved = false → parked = true) :
    ∃ saved', Desk.Course R (e.desk .steady saved)
      ((masters.foldl reactTo (parked, e)).2.desk .steady saved') ∧
      (saved' = false → (masters.foldl reactTo (parked, e)).1 = true) := by
  induction masters generalizing parked saved e with
  | nil => exact ⟨saved, .refl, open_⟩
  | cons m rest ih =>
    obtain ⟨saved', first, open'⟩ := reactTo_course lenient parked saved e m open_
    obtain ⟨saved'', others, open''⟩ := ih _ saved' (reactTo (parked, e) m).2 open'
    exact ⟨saved'', first.trans others, open''⟩

theorem compileEach_course (masters : List Path) (e : Engine σ) :
    Desk.Course R (e.desk .steady true) ((compileEach masters e).2.desk .steady true) := by
  induction masters generalizing e with
  | nil => exact .refl
  | cons p rest ih =>
    unfold compileEach
    split
    next => exact ih e
    next =>
      split
      next restricted =>
        have course := park_persist_course (R := R) p
          (.inl (by simpa using restricted))
        exact course.trans (ih _)
      next open_ =>
        obtain ⟨saved', course, kept⟩ :=
          enqueue_open_course lenient p true (editing_of_open open_)
        obtain rfl : saved' = true := by simpa using kept
        split
        next h => rwa [h] at course
        next h =>
          rw [h] at course
          exact course.trans (ih _)

theorem restoreOne_course (ids : List Nat) (e : Engine σ) (saved : Bool) (raw : String) :
    ∃ saved', Desk.Course R (e.desk .steady saved)
      ((restoreOne (ids, e) raw).2.desk .steady saved') := by
  unfold restoreOne
  dsimp only
  split
  next => exact ⟨saved, warn_course e _ saved⟩
  next =>
    split
    next restricted => exact ⟨_, park_course _ saved (.inl (by simpa using restricted))⟩
    next open_ =>
      obtain ⟨saved', course, _⟩ :=
        enqueue_open_course lenient (.ofText raw) saved (editing_of_open open_)
      split
      next h =>
        rw [h] at course
        exact ⟨saved', course⟩
      next h =>
        rw [h] at course
        exact ⟨saved', course.trans (warn_course _ _ saved')⟩

theorem restoreAll_course (raws : List String) (ids : List Nat) (e : Engine σ) (saved : Bool) :
    ∃ saved', Desk.Course R (e.desk .steady saved)
      ((raws.foldl restoreOne (ids, e)).2.desk .steady saved') := by
  induction raws generalizing ids e saved with
  | nil => exact ⟨saved, .refl⟩
  | cons raw rest ih =>
    obtain ⟨saved', first⟩ := restoreOne_course lenient ids e saved raw
    obtain ⟨saved'', others⟩ := ih _ (restoreOne (ids, e) raw).2 saved'
    exact ⟨saved'', first.trans others⟩

theorem restore_course (e : Engine σ) (s : Snapshot) :
    Desk.Course R (e.desk .steady true) ((e.restore s).2.desk .steady true) := by
  unfold restore
  split
  next => exact .refl
  next =>
    obtain ⟨saved, all⟩ := restoreAll_course lenient s.resume [] e true
    exact all.trans (persist_course Stage.maySave_steady _ saved)

theorem loadAndRestore_course (e : Engine σ) :
    Desk.Course R (e.desk .steady true) (e.loadAndRestore.2.desk .steady true) := by
  unfold loadAndRestore
  split
  next => exact .refl
  next =>
    split
    next => exact .refl
    next => exact .refl
    next => exact .refl
    next s _ => exact restore_course lenient e s

theorem exitRestricted_course (e : Engine σ) (now : Nat) :
    Desk.Course R (e.desk .steady true) ((e.exitRestricted now).desk .steady true) := by
  unfold exitRestricted
  split
  next => exact .refl
  next =>
    have edited : Desk.Step R (e.desk .steady true) ((e.changeMode .editing).desk .due true) :=
      .edit rfl
    exact .head edited (promote_course lenient now rfl)

theorem compileOwners_course (immediate : Bool) (masters : List Path) (e : Engine σ)
    (turns : TurnsIn (fun e => R.queue e.core) immediate masters e) :
    Desk.Course R (e.desk .steady true)
      ((compileOwners immediate masters e).2.desk .steady true) := by
  induction masters generalizing e with
  | nil => exact .refl
  | cons p rest ih =>
    obtain ⟨may, turns⟩ := turns
    unfold compileOwners enqueue
    unfold enqueue at turns
    cases h : e.refusal? p with
    | none =>
      obtain ⟨answer, course⟩ := enqueueAt_course lenient immediate true e.clock (may h) h
      generalize e.enqueueAt p immediate e.clock = result at answer course turns
      obtain ⟨_, after⟩ := result
      cases answer
      exact course.trans (ih _ turns)
    | some refusal =>
      obtain ⟨answer, course⟩ := enqueueAt_refused_course (R := R) .steady immediate
        true e.clock h
      rw [answer] at turns ⊢
      cases refusal with
      | alreadyQueued master =>
        dsimp only at turns ⊢
        have parked := park_persist_course (R := R)
          (e := e.noteRefusal (.alreadyQueued master)) master (.inr (active_of_alreadyQueued h))
        exact course.trans (parked.trans (ih _ turns))
      | _ => exact course

theorem compileFile_course {e : Engine σ} {p : Path} {immediate : Bool}
    (turns : FileTurnsIn (fun e => R.queue e.core) e p immediate) :
    Desk.Course R (e.desk .steady true) ((e.compileFile p immediate).2.desk .steady true) := by
  unfold FileTurnsIn at turns
  unfold compileFile
  split
  next => exact .refl
  next f h =>
    rw [h] at turns
    dsimp only at turns ⊢
    generalize (if f.isMaster then [p] else f.masters) = masters at turns ⊢
    split
    next => exact .refl
    next =>
      split
      next restricted =>
        exact (parkAll_course masters (by simpa using restricted)).trans
          (persist_if_course Stage.maySave_steady _ _)
      next open_ =>
        exact compileOwners_course lenient immediate _ e
          (turns fun restricted => open_ (by rw [restricted]; rfl))

end Lenient

omit [Workshop σ] in
theorem cancelWorker_keeps (e : Engine σ) :
    e.cancelWorker.pending = e.pending ∧ e.cancelWorker.abandoned = e.abandoned ∧
      e.cancelWorker.mode = e.mode := by
  unfold cancelWorker
  split
  next => exact ⟨rfl, rfl, rfl⟩
  next => dsimp only; split <;> exact ⟨rfl, rfl, rfl⟩

theorem cancelAll_course (e : Engine σ) (may : R.drop e.cancelWorker.core e.pending) :
    Desk.Course R (e.desk .steady true) (e.cancelAll.2.desk .steady true) := by
  have dropped : Desk.Step R (e.cancelWorker.desk .steady true)
      (({ e.cancelWorker with
          jobs := e.cancelWorker.jobs.filter Job.isComplete, deferredEntry := false }.noteAll
        ((e.cancelWorker.jobs.filter fun j : Job => !j.isComplete).map
          fun j : Job => .dropped j.id)).desk .steady true) := by
    have same : (e.cancelWorker.desk .steady true).pending = e.pending := e.cancelWorker_keeps.1
    have step : Desk.Step R (e.cancelWorker.desk .steady true) _ := .drop (by rwa [same]) rfl
    simpa only [desk, noteAll, List.map_reverse] using step
  unfold cancelAll
  dsimp only
  refine (cancelWorker_course e true).trans (.head dropped ?_)
  split
  next => exact persist_course Stage.maySave_steady _ true
  next => exact (releaseHost_course _ true).trans (persist_course Stage.maySave_steady _ true)

/-- The engine after it has looked at what it was asked about. -/
def look (e : Engine σ) : Act σ → Engine σ
  | .sourceChanged p =>
    let reading := (e.graph.refresh e.site p).2
    { e with graph := reading.graph, site := reading.storage }.logAll reading.log
  | .compileAll force => (e.targets force).2
  | .rebuildGraph => e.rebuildGraph.2
  | .rebuildIfRequired => e.rebuildIfRequired.2
  | .siteChanged site => { e with site }
  | _ => e

/-- Whether a happening takes only steps that the rules allow. -/
def Allows (R : Rules) (e : Engine σ) : Act σ → Prop
  | .enqueue master _ _ => e.refusal? master = none → R.queue e.core
  | .setMode .restricted _ => R.restrict e.core
  | .compileFile p immediate => FileTurnsIn (fun e => R.queue e.core) e p immediate
  | .queueDrained _ => R.close e.core
  | .cancelAll => R.drop e.cancelWorker.core e.pending
  | _ => True

/-- Rules that ask for something only where a batch ends or work is dropped. -/
theorem allows_of {close : Core → Prop} {drop : Core → Pending → Prop} {e : Engine σ} {a : Act σ}
    (mayClose : ∀ now, a = .queueDrained now → close e.core)
    (mayDrop : a = .cancelAll → drop e.cancelWorker.core e.pending) :
    e.Allows { Rules.free with close, drop } a := by
  cases a with
  | enqueue => exact fun _ => trivial
  | setMode mode => cases mode <;> trivial
  | compileFile p immediate =>
    simp only [Allows, FileTurnsIn]
    split
    next => trivial
    next => exact fun _ => turns_in_free immediate _ e
  | queueDrained now => exact mayClose now rfl
  | cancelAll => exact mayDrop rfl
  | _ => trivial

/-- What a look leaves alone. It gives a graph, a storage and words for the log. -/
theorem look_desk (e : Engine σ) (stage : Stage) (a : Act σ) :
    ∃ graph site events, (∀ event ∈ events, Event.isQuiet event = true) ∧
      (e.look a).desk stage true =
        { e.desk stage true with graph, site, trace := events ++ e.trace } := by
  have logged (d : Engine σ) (lines : List LogLine) :
      (d.logAll lines).trace = (lines.map Event.log).reverse ++ d.trace := rfl
  have quiet (lines : List LogLine) :
      ∀ event ∈ (lines.map Event.log).reverse, Event.isQuiet event = true := by
    intro event hevent
    obtain ⟨line, _, rfl⟩ := List.mem_map.mp (List.mem_reverse.mp hevent)
    rfl
  have silent : ∀ event ∈ ([] : List Event), Event.isQuiet event = true := by simp
  have rebuilt (e : Engine σ) : ∃ graph site events,
      (∀ event ∈ events, Event.isQuiet event = true) ∧ e.rebuildGraph.2.desk stage true =
        { e.desk stage true with graph, site, trace := events ++ e.trace } := by
    unfold rebuildGraph
    split
    next => exact ⟨e.graph, e.site, [], silent, rfl⟩
    next =>
      dsimp only
      split <;> exact ⟨_, _, _, quiet _, rfl⟩
  cases a with
  | sourceChanged p => exact ⟨_, _, _, quiet _, rfl⟩
  | compileAll force =>
    refine ⟨e.graph, (e.targets force).2.site, [], silent, ?_⟩
    unfold look targets
    dsimp only
    split <;> rfl
  | rebuildGraph => exact rebuilt e
  | rebuildIfRequired =>
    unfold look rebuildIfRequired
    dsimp only
    split
    next =>
      have same := rebuilt e
      split
      next h => rwa [h] at same
      next h => rwa [h] at same
    next => exact ⟨e.graph, e.site, [], silent, rfl⟩
  | siteChanged site => exact ⟨e.graph, site, [], silent, rfl⟩
  | _ => exact ⟨e.graph, e.site, [], silent, rfl⟩

/-- The one lemma about what can happen: after a look it moves the desk by allowed steps. -/
theorem act_course (lenient : R.Lenient) {e : Engine σ} {a : Act σ} (allowed : e.Allows R a) :
    Desk.Course R ((e.look a).desk .steady true) ((e.act a).desk .steady true) := by
  cases a with
  | enqueue master immediate now =>
    cases h : e.refusal? master with
    | none => exact (enqueueAt_course lenient immediate true now (allowed h) h).2
    | some refusal =>
      obtain ⟨answer, course⟩ := enqueueAt_refused_course (R := R) .steady immediate
        true now h
      simp only [act, look, answer]
      exact course
  | drainQueue now => exact drain_course Stage.maySave_steady e now
  | poll now => exact pollAt_course lenient e now
  | workerFinished id o now => exact finishJob_course Stage.maySave_steady e id o now
  | queueDrained now => exact closeBatch_course lenient e now allowed
  | tryRestricted =>
    simp only [act, look, tryRestricted]
    split
    next => exact note_course rfl { e with deferredEntry := true } true
    next idle =>
      simp only [isBusy, Bool.or_eq_true, not_or, Bool.not_eq_true, Bool.not_eq_false',
        List.isEmpty_iff] at idle
      exact .single (.restrict (lenient.restrict _ idle.1 idle.2))
  | exitRestricted now => exact exitRestricted_course lenient e now
  | setMode mode now =>
    cases mode with
    | editing => exact exitRestricted_course lenient e now
    | restricted => exact .single (.restrict allowed)
  | sourceChanged p =>
    simp only [act, look, sourceChanged]
    split
    next =>
      obtain ⟨saved, course, open_⟩ := reactAll_course lenient (e.graph.refresh e.site p).1 false
        true (({ e with
          graph := (e.graph.refresh e.site p).2.graph
          site := (e.graph.refresh e.site p).2.storage } : Engine σ).logAll
            (e.graph.refresh e.site p).2.log) (by simp)
      refine course.trans ?_
      split
      next => exact persist_course Stage.maySave_steady _ saved
      next settled =>
        obtain rfl : saved = true := by
          cases saved with
          | true => rfl
          | false => exact absurd (open_ rfl) settled
        exact .refl
    next => exact .refl
  | compileAll force => exact compileEach_course lenient _ _
  | compileFile p immediate => exact compileFile_course lenient allowed
  | cancelAll => exact cancelAll_course e allowed
  | shutdown => exact cancelWorker_course e true
  | rebuildGraph => exact .refl
  | rebuildIfRequired => exact .refl
  | restore s => exact restore_course lenient e s
  | loadAndRestore => exact loadAndRestore_course lenient e
  | siteChanged site => exact .refl
  | workerTurn state =>
    have same : (e.act (.workerTurn state)).desk .steady true = e.desk .steady true := by
      simp only [act, desk, Option.map_map]
      rfl
    exact same ▸ .refl
  | release master => exact release_course e master true
  | timePasses millis => exact .refl

end StoryBuild.Engine
