import StoryBuild.Proofs.Mirroring
import StoryBuild.Proofs.RestrictedMode

namespace StoryBuild.Engine

variable {σ : Type} {p : Path} {e : Engine σ}

theorem snapshot_fits (e : Engine σ) : e.snapshot.Fits := by
  intro j hj time known
  obtain ⟨k, -, rfl⟩ := List.mem_map.mp hj
  obtain ⟨millis, -, saved⟩ := Option.bind_eq_some_iff.mp known
  exact savedTime_fits saved

/-- Whatever was saved is on disk. -/
theorem load_of_saved [Workshop σ] {spelled : ByteArray → Except IoError String} {S : σ → Prop}
    {start : Option (Except IoError String)} (reserved : Reserved p spelled S)
    (stands : Stands p spelled S start e.site e.trace) (accepted : .log refusalLine ∉ e.trace)
    (saved : e.Saved p) : Snapshot.load e.site p = .ok (some e.snapshot) := by
  have last := saved.resolve_left accepted
  refine Snapshot.load_of_text e.snapshot_fits ?_
  rw [stands.text, last, Option.map_some, reserved.text, Option.some_or]

variable [Workshop σ] {options : EngineOptions} {g : FileGraph} {site : σ} {dawn : Nat}
  {S : σ → Prop} {spelled : ByteArray → Except IoError String} {acts : List (Act σ)}

theorem run_fresh_stands (reserved : Reserved p spelled S) (among : S site)
    (outside : (fresh g options site dawn).LeavesFile p S acts) :
    Stands p spelled S (Storage.fileText site p) ((fresh g options site dawn).run acts).site
      ((fresh g options site dawn).run acts).trace :=
  run_stands reserved acts outside ⟨among, rfl⟩

/-- In every run of an engine that keeps its snapshot at a path to which nothing else writes, and
has no snapshot refused: once a snapshot was written, the path loads as the queue as it is. -/
theorem run_snapshot_loads (kept : options.statePath = some p) (reserved : Reserved p spelled S)
    (among : S site) (outside : (fresh g options site dawn).LeavesFile p S acts)
    (accepted : .log refusalLine ∉ ((fresh g options site dawn).run acts).trace)
    (first : (lastWritten p ((fresh g options site dawn).run acts).trace).isSome = true) :
    Snapshot.load ((fresh g options site dawn).run acts).site p =
      .ok (some ((fresh g options site dawn).run acts).snapshot) := by
  have stands := run_fresh_stands reserved among outside
  have mirrors := run_mirrors (p := p) (fresh g options site dawn) acts
  generalize (fresh g options site dawn).run acts = e at accepted first stands mirrors
  refine load_of_saved reserved stands accepted ((mirrors.saved kept).resolve_right ?_)
  -- At the start nothing was written, and since then something was.
  rintro ⟨-, last⟩
  rw [last] at first
  cases first

/-- An engine that keeps its snapshot, when the first of two owners is being compiled and the other
one waits for its turn. -/
def keptOwners : Engine Sandbox :=
  (fresh twoOwners { statePath := some (.ofText "queue.json") } twoOwnersSite 0).act
    (.compileFile (.ofText "shared.ink") false)

/-- The shared file is edited, and no worker can be had any more. The first owner is asked for again
and waits, the second one ends without a worker, and so does the new job of the first. -/
def unstaffedRun : List (Act Sandbox) :=
  [.compileFile (.ofText "shared.ink") false,
    .siteChanged
      { keptOwners.site.mapDisk fun disk => disk.addFile (.ofText "shared.ink") .empty with
        workers := .refused "none left" },
    .compileFile (.ofText "a.ink") false, .poll 0]

/-- The engine after that. -/
def unstaffed : Engine Sandbox :=
  (fresh twoOwners { statePath := some (.ofText "queue.json") } twoOwnersSite 0).run unstaffedRun

/-- Workers are back, and every master is asked for once more. -/
def staffedRun : List (Act Sandbox) :=
  [.siteChanged { unstaffed.site with workers := .taken }, .compileFile (.ofText "b.ink") false,
    .compileFile (.ofText "x.ink") false, .compileFile (.ofText "a.ink") false]

theorem kept_owners_load :
    let queue := Path.ofText "queue.json"
    let now := (fresh twoOwners { statePath := some queue } twoOwnersSite 0).run
      (unstaffedRun ++ staffedRun)
    now.snapshot = ⟨["a.ink"],
      [⟨"a.ink", .complete, some 0⟩, ⟨"b.ink", .compiling, some 0⟩, ⟨"x.ink", .queued, none⟩]⟩ ∧
      Snapshot.load now.site queue = .ok (some now.snapshot) := by
  intro queue now
  have before : (fresh twoOwners { statePath := some queue } twoOwnersSite 0).LeavesFile queue
      (fun _ => True) unstaffedRun := by
    refine .cons (fun _ h => nomatch h) (.cons (fun site same => ⟨trivial, ?_⟩)
      (.cons (fun _ h => nomatch h) (.cons (fun _ h => nomatch h) .nil)))
    have untouched := keptOwners.site.fileText_write (.ofText "shared.ink") queue .empty
    rw [if_neg (by decide)] at untouched
    rw [← Act.siteChanged.inj same]
    exact untouched
  have after : unstaffed.LeavesFile queue (fun _ => True) staffedRun := by
    refine .cons (fun site same => ⟨trivial, ?_⟩) (.cons (fun _ h => nomatch h)
      (.cons (fun _ h => nomatch h) (.cons (fun _ h => nomatch h) .nil)))
    rw [← Act.siteChanged.inj same]
    rfl
  have calm : Undisturbed queue twoOwners now.trace := by decide +kernel
  have first : (lastWritten queue now.trace).isSome = true := by decide +kernel
  refine ⟨by decide +kernel, ?_⟩
  exact run_snapshot_loads rfl (Sandbox.reserved queue) trivial (before.append after)
    calm.accepted first

end StoryBuild.Engine

namespace StoryBuild

/-- Some masters with one more, unless it is there or is no master. -/
def takeUp (g : FileGraph) (taken : List Path) (p : Path) : List Path :=
  if g.isMaster p && !taken.any (· == p) then taken ++ [p] else taken

section TakeUp

variable {g : FileGraph} {taken paths : List Path} {p : Path}

theorem takeUp_new (is_master : g.isMaster p = true) (fresh : taken.any (· == p) = false) :
    takeUp g taken p = taken ++ [p] := by
  rw [takeUp, is_master, fresh]
  rfl

theorem takeUp_known (known : taken.any (· == p) = true) : takeUp g taken p = taken := by
  rw [takeUp, known, Bool.not_true, Bool.and_false]
  rfl

theorem takeUp_other (no_master : g.isMaster p = false) : takeUp g taken p = taken := by
  rw [takeUp, no_master, Bool.false_and]
  rfl

theorem takeUp_prefix (paths : List Path) (taken : List Path) :
    taken <+: paths.foldl (takeUp g) taken := by
  induction paths generalizing taken with
  | nil => exact List.prefix_refl _
  | cons p rest ih =>
    have one : taken <+: takeUp g taken p := by
      unfold takeUp
      split
      next => exact List.prefix_append _ _
      next => exact List.prefix_refl _
    exact one.trans (ih _)

/-- A path that was taken up before changes nothing. -/
theorem takeUp_again (mem : p ∈ paths) (taken : List Path) :
    takeUp g (paths.foldl (takeUp g) taken) p = paths.foldl (takeUp g) taken := by
  cases is_master : g.isMaster p with
  | false => exact takeUp_other is_master
  | true =>
    refine takeUp_known ?_
    obtain ⟨before, after, rfl⟩ := List.append_of_mem mem
    rw [List.foldl_append, List.foldl_cons]
    obtain ⟨later, whole⟩ := takeUp_prefix (g := g) after
      (takeUp g (before.foldl (takeUp g) taken) p)
    generalize before.foldl (takeUp g) taken = sofar at whole
    have there : (takeUp g sofar p).any (· == p) = true := by
      cases known : sofar.any (· == p) with
      | true => rwa [takeUp_known known]
      | false => simp [takeUp_new is_master known, Path.beq_iff]
    rw [← whole, List.any_append, there, Bool.true_or]

/-- Of different paths, the masters that are not there yet are taken up in their order. -/
theorem takeUp_distinct (distinct : paths.Pairwise fun x y => x.parts ≠ y.parts)
    (taken : List Path) : paths.foldl (takeUp g) taken =
      taken ++ paths.filter fun p => g.isMaster p && !taken.any (· == p) := by
  induction paths generalizing taken with
  | nil => simp
  | cons p rest ih =>
    obtain ⟨apart, distinct⟩ := List.pairwise_cons.mp distinct
    rw [List.foldl_cons, ih distinct]
    by_cases new : (g.isMaster p && !taken.any (· == p)) = true
    · rw [List.filter_cons, if_pos new]
      simp only [Bool.and_eq_true, Bool.not_eq_true'] at new
      rw [takeUp_new new.1 new.2, List.append_assoc, List.singleton_append]
      congr 2
      refine List.filter_congr fun q hq => ?_
      have other : (p == q) = false := Path.beq_false_iff.mpr (apart q hq)
      simp [other]
    · rw [List.filter_cons, if_neg new, takeUp, if_neg new]

/-- First come the masters of one list, then those of another that are not in the first. -/
theorem takeUp_both {xs ys : List Path} (hx : xs.Pairwise fun x y => x.parts ≠ y.parts)
    (hy : ys.Pairwise fun x y => x.parts ≠ y.parts) : (xs ++ ys).foldl (takeUp g) [] =
      (xs ++ ys.filter fun p => !xs.any (· == p)).filter g.isMaster := by
  have first : xs.foldl (takeUp g) [] = xs.filter g.isMaster := by
    rw [takeUp_distinct hx]
    simp
  rw [List.foldl_append, first, takeUp_distinct hy, List.filter_append, List.filter_filter]
  congr 1
  refine List.filter_congr fun p _ => ?_
  cases is_master : g.isMaster p with
  | false => rfl
  | true =>
    -- What has the same parts as a master is one, so no master is lost by the filter.
    have same : (xs.filter g.isMaster).any (· == p) = xs.any (· == p) := by
      rw [List.any_filter]
      refine List.any_congr rfl fun x => ?_
      cases alike : x == p with
      | false => simp
      | true =>
        have masters : g.isMaster x = true :=
          (g.isMaster_congr (Path.beq_iff.mp alike)).trans is_master
        simp [masters]
    rw [same]

end TakeUp

/-- A path without backslashes is kept in a snapshot as it is. -/
theorem Path.ofText_slashed {p : Path} (plain : '\\' ∉ p.text.toList) :
    Path.ofText (slashed p.text) = p := by
  refine Path.ext_text ?_
  rw [Path.ofText_text, slashed_plain plain]

namespace Snapshot

/-- Masters are taken up once, however often a snapshot names them. -/
theorem resume_takeUp (s : Snapshot) (g : FileGraph) :
    (s.resume.map Path.ofText).foldl (takeUp g) [] =
      ((s.active.map SavedJob.path ++ s.pending).map Path.ofText).foldl (takeUp g) [] := by
  have loop (names : List String) : ∀ out : List String,
      ((names.foldl (fun out p => if p ∈ out then out else out ++ [p]) out).map
        Path.ofText).foldl (takeUp g) [] =
      (names.map Path.ofText).foldl (takeUp g) ((out.map Path.ofText).foldl (takeUp g) []) := by
    induction names with
    | nil => exact fun _ => rfl
    | cons name rest ih =>
      intro out
      rw [List.foldl_cons, ih, List.map_cons, List.foldl_cons]
      by_cases known : name ∈ out
      · rw [if_pos known, takeUp_again (List.mem_map_of_mem known)]
      · rw [if_neg known, List.map_append, List.foldl_append]
        rfl
  exact loop _ []

end Snapshot

namespace Engine

variable {σ : Type}

/-- The identities and masters of the active jobs. -/
def roster (e : Engine σ) : List (Nat × Path) :=
  e.jobs.map fun j => (j.id, j.path)

/-- Jobs may have come on, but none is new or gone, and the same masters wait. -/
structure SameWork (e d : Engine σ) : Prop where
  roster : d.roster = e.roster
  pending : d.pending = e.pending
  graph : d.graph = e.graph
  mode : d.mode = e.mode

variable {e d f : Engine σ}

theorem SameWork.refl (e : Engine σ) : e.SameWork e :=
  ⟨rfl, rfl, rfl, rfl⟩

theorem SameWork.trans (h : e.SameWork d) (h' : d.SameWork f) : e.SameWork f :=
  ⟨h'.roster.trans h.roster, h'.pending.trans h.pending, h'.graph.trans h.graph,
    h'.mode.trans h.mode⟩

theorem updateJob_work (e : Engine σ) (id : Nat) (f : Job → Job)
    (same : ∀ j, (f j).id = j.id ∧ (f j).path = j.path) : e.SameWork (e.updateJob id f) := by
  refine ⟨?_, rfl, rfl, rfl⟩
  simp only [roster, updateJob, List.map_map]
  refine List.map_congr_left fun j _ => ?_
  simp only [Function.comp_apply]
  split
  next => rw [(same j).1, (same j).2]
  next => rfl

theorem persist_work [Storage σ] (e : Engine σ) : e.SameWork e.persist := by
  unfold persist
  split
  next => exact .refl e
  next =>
    dsimp only
    split <;> exact ⟨rfl, rfl, rfl, rfl⟩

variable [Workshop σ]

theorem finishJob_work (e : Engine σ) (id : Nat) (o : Outcome) (now : Nat) :
    e.SameWork (e.finishJob id o now) := by
  have finished : e.SameWork (e.updateJob id fun j => j.finish o now) :=
    e.updateJob_work id _ fun _ => ⟨rfl, rfl⟩
  unfold finishJob
  split
  next => exact .refl e
  next =>
    refine .trans (finished.trans ?_) (persist_work _)
    split
    next => exact ⟨rfl, rfl, rfl, rfl⟩
    next => exact .refl _

theorem runHere_work (e : Engine σ) (r : Request) : e.SameWork (e.runHere r).2 := by
  unfold runHere
  dsimp only
  split <;> exact ⟨rfl, rfl, rfl, rfl⟩

omit [Workshop σ] in
theorem loseWorker_work (e : Engine σ) (r : Request) : e.SameWork (e.loseWorker r) :=
  ⟨rfl, rfl, rfl, rfl⟩

theorem sendWorker_work (e : Engine σ) (r : Request) : e.SameWork (e.sendWorker r) :=
  ⟨rfl, rfl, rfl, rfl⟩

theorem startJob_work (e : Engine σ) (j : Job) (now : Nat) : e.SameWork (e.startJob j now) := by
  have begun : e.SameWork (e.markStarted j now) := by
    have started := e.updateJob_work j.id (fun k => k.start now e.wall) fun _ => ⟨rfl, rfl⟩
    exact started.trans ⟨rfl, rfl, rfl, rfl⟩
  exact startJob_cases (P := e.SameWork) e j now
    (fun _ _ => begun.trans (finishJob_work _ _ _ _))
    (fun _ _ _ => (begun.trans (runHere_work _ _)).trans (finishJob_work _ _ _ _))
    (fun _ _ _ _ => (begun.trans (loseWorker_work _ _)).trans (persist_work _))
    (fun _ _ _ _ => (begun.trans (sendWorker_work _ _)).trans (persist_work _))

theorem drain_work (e : Engine σ) (now : Nat) : e.SameWork (e.drain now).2 :=
  drain_preserves (P := e.SameWork) (fun _ _ _ h => h.trans (startJob_work _ _ now)) (.refl e)

/-- A request that is accepted adds one job of the next identity. -/
theorem enqueue_work {e : Engine σ} {m : Path} (accepted : e.refusal? m = none) :
    (e.enqueue m false).1 = .ok e.nextId ∧
      (e.enqueue m false).2.roster = e.roster ++ [(e.nextId, m)] ∧
      (e.enqueue m false).2.pending = (e.pending.remove m).2 ∧
      (e.enqueue m false).2.graph = e.graph ∧ (e.enqueue m false).2.mode = e.mode := by
  have added : (e.addJob m false).roster = e.roster ++ [(e.nextId, m)] ∧
      (e.addJob m false).pending = (e.pending.remove m).2 ∧
      (e.addJob m false).graph = e.graph ∧ (e.addJob m false).mode = e.mode := by
    have held : e.suspendHost.jobs = e.jobs ∧ e.suspendHost.pending = e.pending ∧
        e.suspendHost.graph = e.graph ∧ e.suspendHost.mode = e.mode := by
      unfold suspendHost
      split <;> exact ⟨rfl, rfl, rfl, rfl⟩
    obtain ⟨jobs, pending, graph, mode⟩ := held
    unfold addJob
    have saved := persist_work ({ e.suspendHost with
      jobs := e.suspendHost.jobs ++ [e.newJob m false]
      nextId := e.suspendHost.nextId + 1
      pending := (e.suspendHost.pending.remove m).2 }.note (.queued (e.newJob m false).id m))
    refine ⟨saved.roster.trans ?_, saved.pending.trans ?_, saved.graph.trans graph,
      saved.mode.trans mode⟩
    · simp [roster, note, jobs, newJob]
    · simp [note, pending]
  have drained := drain_work (e.addJob m false) e.clock
  simp only [enqueue, enqueueAt, submit, accepted, Bool.false_eq_true, if_false]
  exact ⟨trivial, drained.roster.trans added.1, drained.pending.trans added.2.1,
    drained.graph.trans added.2.2.1, drained.mode.trans added.2.2.2⟩

/-- What holds of some paths, the identities told and the engine is kept when one more path is taken
up, and when the snapshot is saved. -/
structure Restores (K : List Path → List Nat → Engine σ → Prop) : Prop where
  next {paths : List Path} {ids : List Nat} {e : Engine σ} (raw : String) (h : K paths ids e) :
    K (paths ++ [.ofText raw]) (restoreOne (ids, e) raw).1 (restoreOne (ids, e) raw).2
  persist {paths : List Path} {ids : List Nat} {e : Engine σ} (h : K paths ids e) :
    K paths ids e.persist

namespace Restores

variable {K : List Path → List Nat → Engine σ → Prop} {paths : List Path} {ids : List Nat}

theorem restoreAll (restores : Restores K) (raws : List String) (h : K paths ids e) :
    K (paths ++ raws.map .ofText) (raws.foldl restoreOne (ids, e)).1
      (raws.foldl restoreOne (ids, e)).2 := by
  induction raws generalizing e ids paths with
  | nil => rwa [List.map_nil, List.append_nil]
  | cons raw rest ih =>
    have first := restores.next raw h
    generalize hs : restoreOne (ids, e) raw = state at first
    rw [List.foldl_cons, hs, List.map_cons, ← List.singleton_append, ← List.append_assoc]
    exact ih first

end Restores

omit [Workshop σ] in
theorem resume_of_empty {s : Snapshot} (none_ : s.isEmpty = true) : s.resume = [] := by
  simp only [Snapshot.isEmpty, Bool.and_eq_true, List.isEmpty_iff] at none_
  simp [Snapshot.resume, none_.1, none_.2]

theorem Restores.restore {K : List Path → List Nat → Engine σ → Prop} (restores : Restores K)
    (s : Snapshot) (h : K [] [] e) :
    K (s.resume.map .ofText) (e.restore s).1 (e.restore s).2 := by
  unfold Engine.restore
  split
  next none_ => rwa [resume_of_empty none_]
  next => exact restores.persist (restores.restoreAll s.resume h)

/-- What has become of some paths while sources are edited: their masters are the active jobs, and
the new ones are told by their identities. -/
structure TookUp (g : FileGraph) (paths : List Path) (ids : List Nat) (e : Engine σ) : Prop where
  jobs : e.jobs.map Job.path = paths.foldl (takeUp g) []
  ids : ids = e.jobs.map Job.id
  waiting : e.pending.order = []
  graph : e.graph = g
  mode : e.mode = .editing

/-- What has become of them in the restricted mode: their masters wait. -/
structure Parked (g : FileGraph) (paths : List Path) (ids : List Nat) (e : Engine σ) : Prop where
  jobs : e.jobs = []
  ids : ids = []
  waiting : e.pending.order = paths.foldl (takeUp g) []
  valid : e.pending.Valid
  graph : e.graph = g
  mode : e.mode = .restricted

variable {g : FileGraph} {paths : List Path} {ids : List Nat}

omit [Workshop σ] in
theorem hasActiveJob_eq (e : Engine σ) (m : Path) :
    e.hasActiveJob m = (e.jobs.map Job.path).any (· == m) := by
  simp [hasActiveJob, List.any_map, Function.comp_def]

omit [Workshop σ] in
theorem remove_empty {q : Pending} (none_ : q.order = []) (m : Path) :
    (q.remove m).2.order = [] := by
  unfold Pending.remove
  split
  next => simp [none_]
  next => exact none_

theorem TookUp.next (h : e.TookUp g paths ids) (raw : String) :
    (restoreOne (ids, e) raw).2.TookUp g (paths ++ [Path.ofText raw])
      (restoreOne (ids, e) raw).1 := by
  have step : (paths ++ [Path.ofText raw]).foldl (takeUp g) [] =
      takeUp g (e.jobs.map Job.path) (.ofText raw) := by
    rw [h.jobs, List.foldl_append]
    rfl
  generalize hp : Path.ofText raw = p at step
  have open_ : (e.mode == .restricted) = false := by rw [h.mode]; rfl
  unfold restoreOne
  simp only [hp, h.graph, open_, Bool.false_eq_true, if_false]
  cases is_master : g.isMaster p with
  | false =>
    rw [takeUp_other is_master] at step
    exact ⟨step.symm, h.ids, h.waiting, h.graph, h.mode⟩
  | true =>
    have is_master' : e.graph.isMaster p = true := by rw [h.graph, is_master]
    cases active : e.hasActiveJob p with
    | true =>
      -- A master that has a job is refused another one.
      rw [takeUp_known (by rwa [← hasActiveJob_eq])] at step
      have refused := refusal_of_active is_master' active
      simp only [Bool.not_true, Bool.false_eq_true, if_false, enqueue, enqueueAt, submit, refused]
      exact ⟨step.symm, h.ids, h.waiting, h.graph, h.mode⟩
    | false =>
      have accepted := refusal_none_of_free is_master' active
      obtain ⟨answer, roster, pending, graph, mode⟩ := enqueue_work accepted
      rw [takeUp_new is_master (by rwa [← hasActiveJob_eq])] at step
      generalize e.enqueue p false = result at answer roster pending graph mode ⊢
      obtain ⟨_, after⟩ := result
      cases answer
      have ids' := congrArg (List.map Prod.fst) roster
      have paths' := congrArg (List.map Prod.snd) roster
      simp only [Engine.roster, List.map_append, List.map_map, Function.comp_def, List.map_cons,
        List.map_nil] at ids' paths'
      have waiting : after.pending.order = [] := by
        rw [show after.pending = (e.pending.remove p).2 from pending]
        exact remove_empty h.waiting p
      have all_ids : ids ++ [e.nextId] = after.jobs.map Job.id := by
        rw [h.ids]
        exact ids'.symm
      exact ⟨paths'.trans step.symm, all_ids, waiting, graph.trans h.graph, mode.trans h.mode⟩

theorem Parked.next (h : e.Parked g paths ids) (raw : String) :
    (restoreOne (ids, e) raw).2.Parked g (paths ++ [Path.ofText raw])
      (restoreOne (ids, e) raw).1 := by
  have step : (paths ++ [Path.ofText raw]).foldl (takeUp g) [] =
      takeUp g e.pending.order (.ofText raw) := by
    rw [h.waiting, List.foldl_append]
    rfl
  generalize hp : Path.ofText raw = p at step
  have closed : (e.mode == .restricted) = true := by rw [h.mode]; rfl
  unfold restoreOne
  simp only [hp, h.graph, closed, if_true]
  cases is_master : g.isMaster p with
  | false =>
    rw [takeUp_other is_master] at step
    exact ⟨h.jobs, h.ids, step.symm, h.valid, h.graph, h.mode⟩
  | true =>
    have listed : e.pending.order.any (· == p) = e.pending.contains p := by
      rw [Bool.eq_iff_iff, h.valid.same p]
      simp [Path.beq_iff]
    refine ⟨h.jobs, h.ids, ?_, h.valid.push p, h.graph, h.mode⟩
    change (e.pending.push p).2.order = _
    cases waits : e.pending.contains p with
    | true => rw [Pending.push_known waits, step, takeUp_known (listed.trans waits)]
    | false => rw [Pending.push_new waits, step, takeUp_new is_master (listed.trans waits)]

omit [Workshop σ] in
theorem TookUp.persist [Storage σ] (h : e.TookUp g paths ids) : e.persist.TookUp g paths ids := by
  have same := e.persist_work
  have ids' := congrArg (List.map Prod.fst) same.roster
  have paths' := congrArg (List.map Prod.snd) same.roster
  simp only [Engine.roster, List.map_map, Function.comp_def] at ids' paths'
  exact ⟨paths'.trans h.jobs, h.ids.trans ids'.symm, by rw [same.pending, h.waiting],
    same.graph.trans h.graph, same.mode.trans h.mode⟩

omit [Workshop σ] in
theorem Parked.persist [Storage σ] (h : e.Parked g paths ids) : e.persist.Parked g paths ids := by
  have same := e.persist_work
  have jobs : e.persist.jobs = e.jobs := by
    rw [← core_jobs, persist_core, core_jobs]
  have valid : e.persist.pending.Valid := same.pending ▸ h.valid
  exact ⟨jobs.trans h.jobs, h.ids, by rw [same.pending, h.waiting], valid,
    same.graph.trans h.graph, same.mode.trans h.mode⟩

theorem restores_tookUp (g : FileGraph) : Restores (σ := σ) (TookUp g) where
  next raw h := h.next raw
  persist h := h.persist

theorem restores_parked (g : FileGraph) : Restores (σ := σ) (Parked g) where
  next raw h := h.next raw
  persist h := h.persist

end Engine

end StoryBuild
