import StoryBuild.Proofs.Rounds
import StoryBuild.Proofs.SoundGraphs

namespace StoryBuild

namespace Engine

variable {e d f : Engine Sandbox} {m : Path} {ms owners : List Path}

theorem breathe_eq (d : Engine Sandbox) : d.breathe = d := by
  unfold breathe
  split
  next out => exact congrArg (fun w => { d with inFlight := w }) out.symm
  next => rfl

/-- No worker waits, and what is queued is for the calling thread. -/
structure Poised (d : Engine Sandbox) : Prop where
  at_end : ∀ w, d.inFlight = some w → w.isWaiting = false
  here_ : ∀ j ∈ d.jobs, j.isQueued = true → j.immediate = true

theorem job_of_master (h : e.Pledges d [m]) : ∃ j, d.jobs = [j] := by
  obtain ⟨j, rest, jobs, -, none_⟩ := List.map_eq_cons_iff.mp h.masters
  rw [List.map_eq_nil_iff.mp none_] at jobs
  exact ⟨j, jobs⟩

/-- A job for the calling thread ends as soon as it is started. -/
theorem drain_poised (h : e.Pledges d [m]) (poised : d.Poised) (free : d.inFlight = none)
    (now : Nat) :
    (d.drain now).2.core.Rests ∧ ∀ j ∈ (d.drain now).2.jobs, j.isQueued = false := by
  have rests := h.rests free
  have ended : (d.drain now).2.core.Rests := by
    obtain ⟨j, jobs⟩ := job_of_master h
    unfold drain
    rw [jobs]
    change (drainLoop 1 d now).2.core.Rests
    unfold drainLoop
    split
    next => exact rests
    next =>
      split
      next => exact rests
      next k first =>
        have mine := poised.here_ k (List.mem_of_find?_eq_some first) (List.find?_some first)
        obtain ⟨left, still⟩ := (startJob_each h rests first now).2 mine
        exact ⟨still, by simp [core, drainLoop, left]⟩
  exact ⟨ended, (drain_drains h.sane.kept.ordered now).drained ended⟩

/-- One look puts the outcome of a job for the calling thread on record. -/
theorem pollAt_poised (order : InPathOrder e.graph.files) (h : e.Pledges d [m])
    (poised : d.Poised) (now : Nat) :
    e.Recorded (d.pollAt now).2 [m] ∧ (d.pollAt now).2.inFlight = none := by
  have collected := collect_pledges h now
  have free := collect_free poised.at_end now
  have rests := collected.rests free
  have poised' : (d.collect now).Poised := by
    refine ⟨at_end_of_free free, fun j hj queued => ?_⟩
    have old := (d.collect_queued now).subset (List.mem_filter.mpr ⟨hj, queued⟩)
    exact poised.here_ j (List.mem_filter.mp old).1 queued
  have kept : d.beforeEnd now = ((d.collect now).advance now).2 := by
    have none_ : (d.collect now).jobs.find? Job.isCompiling = none := by
      refine List.find?_eq_none.mpr fun k hk => ?_
      simp [rests.idle k hk]
    unfold beforeEnd expire
    rw [none_]
  have before : e.Pledges (d.beforeEnd now) [m] := kept ▸ advance_pledges collected now
  obtain ⟨ended, started⟩ : (d.beforeEnd now).core.Rests ∧
      ∀ j ∈ (d.beforeEnd now).jobs, j.isQueued = false := by
    rw [kept]
    unfold advance
    split
    next => exact drain_poised collected poised' free now
    next left =>
      refine ⟨rests, fun j hj => ?_⟩
      simp only [(idle_iff.mp rests).1, hasQueued, Bool.not_false, Bool.true_and,
        Bool.not_eq_true, List.any_eq_false] at left
      simpa using left j hj
  obtain ⟨idle, free'⟩ := idle_iff.mp ended
  have busy : (d.beforeEnd now).isBusy = true := by
    obtain ⟨j, one⟩ := job_of_master before
    simp [isBusy, one]
  have queue : (d.beforeEnd now).hasQueued = false := by
    simpa [hasQueued] using started
  have closed : (d.pollAt now).2 = (d.beforeEnd now).endBatch.2 := by
    rw [pollAt_after, settle, if_pos (by simp [idle, queue, busy])]
    exact congrArg Prod.snd (closeBatch_of_none_waits before.none_waits now)
  rw [closed]
  refine ⟨before.recorded order fun j hj => ?_, ?_⟩
  · exact Job.complete_of_neither (started j hj) (ended.idle j hj)
  · obtain ⟨site, suspended, trace, -, same⟩ := endBatch_eq before.undeferred
    rw [same]
    exact free'

/-- There is nothing to be seen in an engine that has neither a batch nor a worker. -/
theorem breatheAndPoll_idle (idle : d.isBusy = false) (free : d.inFlight = none) :
    d.breatheAndPoll = d := by
  obtain ⟨jobs, -⟩ := isBusy_eq_false.mp idle
  rw [breatheAndPoll, breathe_eq]
  simp [poll, pollAt, collect, expire, advance, settle, free, jobs, hasQueued, idle]

/-- What one look settles need not be looked at again. -/
theorem waitFor_eq (id steps : Nat) (idle : d.breatheAndPoll.isBusy = false)
    (free : d.breatheAndPoll.inFlight = none) : waitFor id (steps + 1) d = d.breatheAndPoll := by
  have settled : d.breatheAndPoll.isSettled id = true := by
    simp [isSettled, job?, (isBusy_eq_false.mp idle).1]
  have again := breatheAndPoll_idle idle free
  unfold waitFor
  split
  next => rfl
  next =>
    dsimp only
    rw [if_pos settled]
    cases steps with
    | zero => exact again
    | succ n => rw [waitFor, if_pos settled, again]

theorem enqueue_of_free (immediate : Bool) (is_master : d.graph.isMaster m = true)
    (free : d.hasActiveJob m = false) :
    d.enqueue m immediate = (.ok d.nextId,
      let queued := ((d.addJob m immediate).drain d.clock).2
      if immediate then waitFor d.nextId (2 * (queued.jobs.length + 1)) queued else queued) := by
  simp only [enqueue, enqueueAt, submit, refusal_none_of_free is_master free]

theorem enqueue_of_no_master (immediate : Bool) (no_master : d.graph.isMaster m = false) :
    ∃ refusal, (∀ p, refusal ≠ .alreadyQueued p) ∧ d.enqueue m immediate = (.error refusal, d) := by
  unfold FileGraph.isMaster at no_master
  cases found : d.graph.file? m with
  | none =>
    refine ⟨.unknownFile m, by simp, ?_⟩
    simp [enqueue, enqueueAt, submit, refusal?, found, noteRefusal]
  | some f =>
    refine ⟨.notAMaster m, by simp, ?_⟩
    simp only [found, Option.any_some] at no_master
    simp [enqueue, enqueueAt, submit, refusal?, found, no_master, noteRefusal]

theorem compileOwners_next (immediate : Bool) (rest : List Path)
    (is_master : d.graph.isMaster m = true) (free : d.hasActiveJob m = false) :
    (compileOwners immediate (m :: rest) d).2 =
      (compileOwners immediate rest (d.enqueue m immediate).2).2 := by
  rw [compileOwners, enqueue_of_free immediate is_master free]

theorem compileOwners_stop (immediate : Bool) (rest : List Path)
    (no_master : d.graph.isMaster m = false) :
    (compileOwners immediate (m :: rest) d).2 = d := by
  obtain ⟨refusal, other, refused⟩ := enqueue_of_no_master immediate no_master
  rw [compileOwners, refused]
  cases refusal with
  | alreadyQueued p => exact absurd rfl (other p)
  | _ => rfl

/-- On workers, the owners of a file become jobs of one batch. -/
theorem compileOwners_pledges (h : e.Pledges d ms) (determined : ∀ m ∈ owners, e.Determined m)
    (distinct : (ms ++ owners).Pairwise fun p q => p.parts ≠ q.parts) :
    e.Pledges (compileOwners false owners d).2 (ms ++ owners.takeWhile e.graph.isMaster) := by
  induction owners generalizing d ms with
  | nil => simpa [compileOwners] using h
  | cons m rest ih =>
    have graph : d.graph = e.graph := h.graph
    cases is_master : e.graph.isMaster m with
    | false =>
      rw [compileOwners_stop false rest (graph ▸ is_master), List.takeWhile_cons_of_neg]
      · simpa using h
      · simp [is_master]
    | true =>
      have free : d.hasActiveJob m = false := by
        refine List.any_eq_false.mpr fun k hk same => ?_
        have before := h.masters ▸ List.mem_map_of_mem hk
        have apart := (List.pairwise_append.mp distinct).2.2 _ before m List.mem_cons_self
        exact apart (Path.beq_iff.mp same)
      have accepted := refusal_none_of_free (graph ▸ is_master) free
      have mine := determined m List.mem_cons_self
      have queued := drain_pledges (addJob_pledges h accepted mine false) d.clock
      rw [compileOwners_next false rest (graph ▸ is_master) free,
        enqueue_of_free false (graph ▸ is_master) free, List.takeWhile_cons_of_pos is_master]
      have others := ih queued (fun n hn => determined n (List.mem_cons_of_mem m hn))
        (by simpa using distinct)
      simpa using others

/-- On the calling thread, a request has been put on record when it returns. -/
theorem enqueue_recorded (order : InPathOrder d.graph.files) (h : d.Pledges d [])
    (at_end : ∀ w, d.inFlight = some w → w.isWaiting = false) (determined : d.Determined m)
    (is_master : d.graph.isMaster m = true) :
    d.Recorded (d.enqueue m true).2 [m] ∧ (d.enqueue m true).2.inFlight = none := by
  have nojobs : d.jobs = [] := List.map_eq_nil_iff.mp h.masters
  have free : d.hasActiveJob m = false := by simp [hasActiveJob, nojobs]
  have accepted := refusal_none_of_free is_master free
  have added : d.Pledges (d.addJob m true) [m] := addJob_pledges h accepted determined true
  have jobs : (d.addJob m true).jobs = [d.newJob m true] := by
    have all : (d.addJob m true).jobs = d.jobs ++ [d.newJob m true] :=
      congrArg Core.jobs (d.addJob_core m true)
    rw [all, nojobs, List.nil_append]
  have out : (d.addJob m true).inFlight = d.inFlight := addJob_inFlight d m true
  have poised : (d.addJob m true).Poised := by
    rw [← out] at at_end
    exact ⟨at_end, by simp [jobs, newJob]⟩
  have queued := drain_pledges added d.clock
  obtain ⟨begun, hb⟩ : ∃ begun, begun = ((d.addJob m true).drain d.clock).2 := ⟨_, rfl⟩
  have poised' : begun.Poised := by
    rw [hb]
    cases left : (d.addJob m true).inFlight with
    | none =>
      obtain ⟨rests, started⟩ := drain_poised added poised left d.clock
      refine ⟨at_end_of_free (idle_iff.mp rests).2, fun j hj waits => ?_⟩
      simp [started j hj] at waits
    | some w =>
      -- As long as a worker is left, no job is started.
      have same : ((d.addJob m true).drain d.clock).2 = d.addJob m true := by
        unfold drain
        rw [jobs]
        change (drainLoop 1 _ _).2 = _
        rw [drainLoop, if_pos (by simp [left])]
      rw [same]
      exact poised
  obtain ⟨recorded, free'⟩ := pollAt_poised order (hb ▸ queued) poised' begun.clock
  have looked : begun.breatheAndPoll = (begun.pollAt begun.clock).2 := by
    rw [breatheAndPoll, breathe_eq]
    rfl
  rw [enqueue_of_free true is_master free]
  dsimp only
  rw [← hb, if_pos rfl, Nat.mul_succ, waitFor_eq, looked]
  · exact ⟨recorded, free'⟩
  · rw [looked]
    exact recorded.idle
  · rw [looked]
    exact free'

/-- On the calling thread, the owners of a file are put on record one after the other. -/
theorem compileOwners_recorded (order : InPathOrder e.graph.files) (h : e.Recorded d ms)
    (at_end : ∀ w, d.inFlight = some w → w.isWaiting = false)
    (determined : ∀ m ∈ owners, e.Determined m)
    (alone : ∀ m ∈ owners, e.LeavesAlone ms (e.graph.absolute m))
    (apart : owners.Pairwise fun m n =>
      ¬ (e.graph.absolute (e.graph.artifactPath m)).ShowsAt (e.graph.absolute n).parts) :
    e.Recorded (compileOwners true owners d).2 (ms ++ owners.takeWhile e.graph.isMaster) := by
  induction owners generalizing d ms with
  | nil => simpa [compileOwners] using h
  | cons m rest ih =>
    have same_master : d.graph.isMaster m = e.graph.isMaster m :=
      FileGraph.isMaster_of_linkage h.links m
    cases is_master : e.graph.isMaster m with
    | false =>
      rw [compileOwners_stop true rest (same_master.trans is_master), List.takeWhile_cons_of_neg]
      · simpa using h
      · simp [is_master]
    | true =>
      have taken : d.site.workers = .taken := h.workers.trans h.taken
      have idle : d.Pledges d [] := pledges_idle h.sane h.idle h.none_waits h.undeferred taken
      have free : d.hasActiveJob m = false := by
        simp [hasActiveJob, List.map_eq_nil_iff.mp idle.masters]
      have mine := determined m List.mem_cons_self
      have left_alone := alone m List.mem_cons_self
      obtain ⟨recorded, free'⟩ := enqueue_recorded (FileGraph.inPathOrder_of_linkage order h.links)
        idle at_end (h.determined left_alone mine) (same_master.trans is_master)
      have both : e.Recorded (d.enqueue m true).2 (ms ++ [m]) :=
        h.trans recorded order (by simp [h.report_eq left_alone]) (by simpa using mine)
      obtain ⟨behind, apart'⟩ := List.pairwise_cons.mp apart
      rw [compileOwners_next true rest (same_master.trans is_master) free,
        List.takeWhile_cons_of_pos is_master]
      have others := ih both (at_end_of_free free')
        (fun n hn => determined n (List.mem_cons_of_mem m hn)) (fun n hn => ?_) apart'
      · simpa using others
      · have old := alone n (List.mem_cons_of_mem m hn)
        refine ⟨old.snapshot, fun k hk => ?_⟩
        rcases List.mem_append.mp hk with hk | hk
        · exact old.artifacts k hk
        · rw [List.mem_singleton.mp hk]
          exact behind n hn

/-- Sources are being edited, and there is nothing to do. -/
structure Calm (e : Engine Sandbox) : Prop where
  mode : e.mode = .editing
  idle : e.isBusy = false
  none_waits : e.pending.order = []
  undeferred : e.deferredEntry = false

theorem Recorded.calm (h : e.Recorded d ms) (mode : e.mode = .editing) : d.Calm :=
  ⟨h.mode.trans mode, h.idle, h.none_waits, h.undeferred⟩

/-- The same outcomes on record make like engines. -/
theorem Recorded.alike (h : e.Recorded d ms) (h' : e.Recorded f ms)
    (order : InPathOrder e.graph.files) (determined : ∀ m ∈ ms, e.Determined m) : d.Alike f := by
  obtain ⟨jobs, reports, like⟩ := h.records
  obtain ⟨jobs', reports', like'⟩ := h'.records
  have same : jobs'.map Job.report = jobs.map Job.report := by
    have views : jobs'.map (some ∘ Job.report) = jobs.map (some ∘ Job.report) :=
      reports'.trans reports.symm
    rw [← List.map_map, ← List.map_map] at views
    exact List.map_injective_iff.mpr (fun _ _ => Option.some.inj) views
  have both := applyJobs_alike order (.refl e) same (fun j hj => ?_) {} {}
  · exact like.symm.trans (both.trans like')
  · obtain ⟨m, hm, reported⟩ : ∃ m ∈ ms, e.report? m = some j.report :=
      List.mem_map.mp (reports ▸ List.mem_map_of_mem hj)
    rw [show j.output = _ from report_output reported]
    exact (determined m hm).artifact

end Engine

/-- The masters that a compile of one file is about. -/
def FileGraph.ownersOf (g : FileGraph) (p : Path) : List Path :=
  match g.file? p with
  | none => []
  | some f => if f.isMaster then [p] else f.masters

theorem FileGraph.Sound.ownersOf_distinct {g : FileGraph} (sound : g.Sound) (p : Path) :
    (g.ownersOf p).Pairwise fun m n => m.parts ≠ n.parts := by
  unfold ownersOf
  cases found : g.file? p with
  | none => exact .nil
  | some f =>
    dsimp only
    split
    next => exact List.pairwise_singleton _ _
    next => exact (sound.sorted f (file_found found).1).imp Path.before_ne

namespace Engine

variable {e : Engine Sandbox}

theorem compileFile_editing (editing : e.mode = .editing) (p : Path) (immediate : Bool) :
    (e.compileFile p immediate).2 = (compileOwners immediate (e.graph.ownersOf p) e).2 := by
  unfold compileFile FileGraph.ownersOf
  cases e.graph.file? p with
  | none => rfl
  | some f =>
    dsimp only
    generalize (if f.isMaster = true then [p] else f.masters) = owners
    split
    next none_ =>
      rw [List.isEmpty_iff.mp none_]
      rfl
    next => simp [editing]

/-- From a calm engine, the compile of a file on the calling thread ends in a calm engine. Where
workers can be had, the compile on them has an end too if no look gives a compile up, and then the
records are the same, up to the times of compiles, and so are the files, up to the snapshot. -/
theorem immediate_compile_agrees {root : Path} {places : GraphOptions} {site : Sandbox}
    {reading : FileGraph.Reading Sandbox} (built : FileGraph.build root places site = .ok reading)
    (options : EngineOptions) (dawn : Nat) (acts : List (Act Sandbox)) (p : Path)
    (he : e = (fresh reading.graph options reading.storage dawn).run acts)
    (taken : e.site.workers = .taken) (calm : e.Calm)
    (at_end : ∀ w, e.inFlight = some w → w.isWaiting = false)
    (determined : ∀ m ∈ e.graph.ownersOf p, e.Determined m)
    (apart : (e.graph.ownersOf p).Pairwise fun m n =>
      ¬ (e.graph.absolute (e.graph.artifactPath m)).ShowsAt (e.graph.absolute n).parts) :
    let here_ := (e.compileFile p true).2
    let away := (e.compileFile p false).2
    here_.Calm ∧
      (∀ times, (∀ n, away.punctual (rounds times n) = true) →
        ∃ n, (away.run (rounds times n)).isBusy = false) ∧
      ∀ waits, away.punctual waits = true → (away.run waits).isBusy = false →
        (away.run waits).Calm ∧ here_.Alike (away.run waits) := by
  have sound : e.graph.Sound := by
    have linked := (FileGraph.JustRead.built built).linked
    rw [he]
    exact run_sound_graph acts (linked.2.sound linked.1)
  have sane : (e.desk .steady true).Sane := by
    rw [he]
    exact run_sane (fresh_sane ..) acts
  have start : e.Pledges e [] :=
    pledges_idle sane calm.idle calm.none_waits calm.undeferred taken
  have nothing : e.Recorded e [] := (start.recorded_nothing calm.idle).2
  have recorded := compileOwners_recorded sound.order nothing at_end determined
    (fun m hm => ⟨(determined m hm).source, by simp⟩) apart
  have pledged := compileOwners_pledges start determined (sound.ownersOf_distinct p)
  intro here_ away
  rw [← compileFile_editing calm.mode] at recorded pledged
  refine ⟨recorded.calm calm.mode, fun times in_time => ?_, fun waits in_time idle => ?_⟩
  · exact rounds_end sound.order times (.inl pledged) in_time
  · have later : e.Recorded (away.run waits)
        ([] ++ (e.graph.ownersOf p).takeWhile e.graph.isMaster) := by
      rcases run_pledges sound.order (.inl pledged) in_time with pledges | recorded
      · obtain ⟨none_, recorded⟩ := pledges.recorded_nothing idle
        rwa [none_]
      · exact recorded
    refine ⟨later.calm calm.mode, recorded.alike later sound.order fun m hm => ?_⟩
    exact determined m ((List.takeWhile_sublist _).subset (by simpa using hm))

namespace Sharing

/-- A part alone in its project. -/
def partAlone (part : String) : Sandbox :=
  { disk := MemoryDisk.empty.addFile (.ofText ("/story/" ++ part)) "Once.".toUTF8 }

/-- Masters come to the part, each with its text and with what the compiler does with it. -/
def joined (part : String) (masters : List (String × String × Script)) : List (Act Sandbox) :=
  let add (s : Sandbox) (m : String × String × Script) : Sandbox :=
    (s.mapDisk (·.addFile (.ofText ("/story/" ++ m.1)) m.2.1.toUTF8)).setScript (.ofText m.1) m.2.2
  .siteChanged (masters.foldl add (partAlone part)) ::
    masters.map fun m => .sourceChanged (.ofText m.1)

/-- Nothing is compiled unasked, and a snapshot is kept. -/
def onRequest : EngineOptions where
  statePath := some (.ofText "/story/queue.json")
  compileOnChange := false

/-- The part with its masters. -/
def shared (part : String) (masters : List (String × String × Script))
    (reading : FileGraph.Reading Sandbox) : Engine Sandbox :=
  (fresh reading.graph onRequest reading.storage 0).run (joined part masters)

/-- The first master hangs before it succeeds, and the compiler fails on the second. -/
def bothMasters : List (String × String × Script) :=
  [("a.ink", "INCLUDE part.ink", .hang ["half"] false (.succeed [] "A".toUTF8)),
    ("b.ink", "INCLUDE part.ink", .fail ["WARNING: 'part.ink' line 1: vague"] "broken")]

end Sharing

open Sharing

theorem shared_part_compiles_agree :
    ∃ reading,
      FileGraph.build (.ofText "/story") { extension := "ink" } (partAlone "part.ink") =
          .ok reading ∧
        let e := shared "part.ink" bothMasters reading
        let later := (e.compileFile (.ofText "part.ink") false).2.run (rounds (fun _ => 0) 2)
        (e.graph.ownersOf (.ofText "part.ink")).map Path.text = ["a.ink", "b.ink"] ∧ later.Calm ∧
          (e.compileFile (.ofText "part.ink") true).2.Alike later := by
  have wanted : ((FileGraph.build (.ofText "/story") { extension := "ink" }
      (partAlone "part.ink")).toOption.map fun reading =>
        let e := shared "part.ink" bothMasters reading
        let owners := e.graph.ownersOf (.ofText "part.ink")
        let away := (e.compileFile (.ofText "part.ink") false).2
        let place (m : Path) := e.graph.absolute (e.graph.artifactPath m)
        let kept := Path.ofText "/story/queue.json"
        decide ((owners.map Path.text = ["a.ink", "b.ink"] ∧ e.inFlight.isSome = false) ∧
          (e.site.workers = .taken ∧ e.mode = .editing ∧ e.isBusy = false ∧
            e.pending.order.map Path.text = [] ∧ e.deferredEntry = false) ∧
          (away.punctual (rounds (fun _ => 0) 2) = true ∧
            (away.run (rounds (fun _ => 0) 2)).isBusy = false) ∧
          (∀ m ∈ owners, (e.outcome? m).isSome = true ∧
            ¬ kept.ShowsAt (e.graph.absolute m).parts ∧ kept.parts ≠ (place m).parts) ∧
          owners.Pairwise fun m n => ¬ (place m).ShowsAt (e.graph.absolute n).parts)) =
      some true := by
    decide +kernel
  cases built : FileGraph.build (.ofText "/story") { extension := "ink" }
      (partAlone "part.ink") with
  | error cause => simp [built, Except.toOption] at wanted
  | ok reading =>
    simp only [built, Except.toOption, Option.map_some, Option.some.injEq, decide_eq_true_eq,
      List.map_eq_nil_iff, Option.isSome_eq_false_iff, Option.isNone_iff_eq_none] at wanted
    obtain ⟨⟨owners, free⟩, ⟨workers, editing, idle, none_waits, undeferred⟩, ⟨in_time, ended⟩,
      clear, apart⟩ := wanted
    have options : (shared "part.ink" bothMasters reading).options = onRequest := run_options ..
    have agrees := immediate_compile_agrees built onRequest 0 (joined "part.ink" bothMasters)
      (.ofText "part.ink") rfl workers ⟨editing, idle, none_waits, undeferred⟩
      (at_end_of_free free) (fun m hm => ?_) apart
    · exact ⟨reading, rfl, owners, agrees.2.2 _ in_time ended⟩
    · obtain ⟨known, source, artifact⟩ := clear m hm
      refine ⟨known, fun p kept => ?_, fun p kept => ?_⟩
      · obtain rfl := Option.some.inj (options ▸ kept)
        exact source
      · obtain rfl := Option.some.inj (options ▸ kept)
        exact artifact

/-- The artifact of the first master takes the place of the second one. On the calling thread it is
there before the second is read. -/
example :
    let places : GraphOptions := { extension := "json", outputDir := some (.ofText "out") }
    let part : Sandbox :=
      { disk := MemoryDisk.empty.addFile (.ofText "/story/f.json") "Once.".toUTF8
        scripts := [(.ofText "b.json", .succeed [] ⟨#[255]⟩),
          (.ofText "out/b.json", .succeed [] "C".toUTF8)] }
    ((FileGraph.build (.ofText "/story") places part).toOption.map fun reading =>
      let site := reading.storage.mapDisk fun disk =>
        (disk.addFile (.ofText "/story/b.json") "INCLUDE f.json".toUTF8).addFile
          (.ofText "/story/out/b.json") "INCLUDE ../f.json".toUTF8
      let e := (fresh reading.graph { compileOnChange := false } reading.storage 0).run
        [.siteChanged site, .sourceChanged (.ofText "b.json"),
          .sourceChanged (.ofText "out/b.json")]
      let away := (e.compileFile (.ofText "f.json") false).2
      let said (d : Engine Sandbox) := d.graph.files.map fun f => (f.path.text, f.unhandled)
      (said (e.compileFile (.ofText "f.json") true).2, said (away.run [.poll 0, .poll 0]))) =
    some ([("b.json", []), ("f.json", []),
        ("out/b.json", ["Invalid UTF-8: invalid utf-8 sequence of 1 bytes from index 0"])],
      [("b.json", []), ("f.json", []), ("out/b.json", [])]) := by
  decide +kernel

end Engine

end StoryBuild
