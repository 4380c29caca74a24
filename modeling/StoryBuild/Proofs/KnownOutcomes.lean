import StoryBuild.Proofs.Reports
import StoryBuild.Proofs.Restoring
import StoryBuild.Proofs.Waits

namespace StoryBuild

/-- What a compile comes to after some lines, unless it has to read the disk for it. -/
def Script.outcome? : List String → Script → Option Outcome
  | before, succeed lines artifact =>
    some { artifact := some artifact, lines := before ++ lines }
  | before, reject lines => some { lines := before ++ lines }
  | before, fail lines message => some { lines := before ++ lines, unhandled := [message] }
  | before, crash message =>
    some { lines := before, unhandled := ["compiler panicked: " ++ message] }
  | _, collect => none
  | before, hang lines _ next => outcome? (before ++ lines) next

/-- A compile that nobody stops has its outcome, or waits before it. On the calling thread it does
not wait. -/
theorem Script.play_outcome {σ : Type} [Storage σ] {script : Script} {before : List String}
    {o : Outcome} (known : script.outcome? before = some o) (s : σ) (r : Request) (here : Bool) :
    script.play s r here false before = .finished o ∨
      here = false ∧ ∃ lines deaf next,
        script.play s r here false before = .waiting lines deaf next ∧
          next.outcome? lines = some o := by
  induction script generalizing before with
  | collect => cases known
  | hang lines deaf next ih =>
    cases here with
    | true => exact ih known
    | false => exact .inr ⟨rfl, before ++ lines, deaf, next, rfl, known⟩
  | _ => exact .inl (congrArg Progress.finished (Option.some.inj known))

/-- Whether a worker has an outcome, or will have it once it is let go. -/
def Worker.Brings (w : Worker) (o : Outcome) : Prop :=
  match w.state with
  | .finished found => found = o
  | .waiting lines _ next => next.outcome? lines = some o
  | .lost => False

/-- No batch ends. -/
def Rules.endless : Rules :=
  { Rules.free with close := fun _ => False }

theorem Core.Started.abandoned {now : Nat} {j : Job} {c d : Core} (h : Core.Started now j c d) :
    d.abandoned = c.abandoned := by
  cases h <;> rfl

namespace Engine

variable {e d d' : Engine Sandbox} {j : Job} {m : Path} {ms : List Path} {o : Outcome}
  {out : Option Worker}

/-- What a compile of a master comes to. -/
def outcome? (e : Engine Sandbox) (m : Path) : Option Outcome :=
  match Storage.readText e.site (e.graph.absolute m) with
  | .error cause => some (failedOutcome cause.message)
  | .ok _ => (e.site.scriptOf m).outcome? []

/-- What is to be reported on a master. -/
def report? (e : Engine Sandbox) (m : Path) : Option JobReport :=
  (e.outcome? m).map fun o => ⟨m, e.graph.absolute (e.graph.artifactPath m), o⟩

/-- The outcome of a master is known, and no snapshot is in the way of its source or its
artifact. -/
structure Determined (e : Engine Sandbox) (m : Path) : Prop where
  outcome : (e.outcome? m).isSome = true
  source : ∀ p, e.options.statePath = some p → ¬ p.ShowsAt (e.graph.absolute m).parts
  artifact : Sandbox.Elsewhere e.options.statePath
    (e.graph.absolute (e.graph.artifactPath m)).parts

theorem Determined.outcome_saved (h : e.Determined m) (graph : d.graph = e.graph)
    (saves : Sandbox.Saves e.options.statePath e.site d.site) : d.outcome? m = e.outcome? m := by
  have read := saves.readText h.source
  have script : d.site.scriptOf m = e.site.scriptOf m := by
    rw [Sandbox.scriptOf, saves.alike.scripts]
    rfl
  rw [outcome?, outcome?, graph, read, script]

/-- How a job of a master stands whose outcome is known, with the worker that is out. -/
structure Pledged (e : Engine Sandbox) (out : Option Worker) (j : Job) : Prop where
  input : j.input = e.graph.absolute j.path
  output : j.output = e.graph.absolute (e.graph.artifactPath j.path)
  complete : j.isComplete = true → e.outcome? j.path = some j.report.outcome
  compiling : j.isCompiling = true →
    ∃ w o, out = some w ∧ w.job = j.id ∧ e.outcome? j.path = some o ∧ w.Brings o

/-- What the worker does is no matter to a job that is not being compiled. -/
theorem Pledged.idle (h : e.Pledged out j) (idle : j.isCompiling = false) (out' : Option Worker) :
    e.Pledged out' j :=
  ⟨h.input, h.output, h.complete, fun compiling => absurd compiling (by simp [idle])⟩

theorem Pledged.finished (h : e.Pledged out j) (known : e.outcome? j.path = some o) (now : Nat)
    (out' : Option Worker) : e.Pledged out' (j.finish o now) :=
  ⟨h.input, h.output, fun _ => known, fun compiling => nomatch compiling⟩

theorem Pledged.started (h : e.Pledged out j) (now wall : Nat) {w : Worker} (mine : w.job = j.id)
    (known : e.outcome? j.path = some o) (brings : w.Brings o) :
    e.Pledged (some w) (j.start now wall) :=
  ⟨h.input, h.output, fun complete => (nomatch complete),
    fun _ => ⟨w, o, rfl, mine, known, brings⟩⟩

/-- An engine on the way to the outcomes of some masters, of which none has been put on record. -/
structure Pledges (e d : Engine Sandbox) (ms : List Path) : Prop where
  options : d.options = e.options
  graph : d.graph = e.graph
  mode : d.mode = e.mode
  undeferred : d.deferredEntry = false
  none_waits : d.pending.order = []
  abandoned : d.abandoned = []
  taken : e.site.workers = .taken
  sane : (d.desk .steady true).Sane
  saves : Sandbox.Saves e.options.statePath e.site d.site
  masters : d.jobs.map Job.path = ms
  determined : ∀ m ∈ ms, e.Determined m
  each : ∀ j ∈ d.jobs, e.Pledged d.inFlight j

theorem isBusy_eq_false {σ : Type} {e : Engine σ} :
    e.isBusy = false ↔ e.jobs = [] ∧ e.abandoned = [] := by
  simp [isBusy]

/-- An engine that has no jobs. -/
theorem pledges_idle (sane : (e.desk .steady true).Sane) (idle : e.isBusy = false)
    (none_waits : e.pending.order = []) (undeferred : e.deferredEntry = false)
    (taken : e.site.workers = .taken) : e.Pledges e [] := by
  obtain ⟨jobs, abandoned⟩ := isBusy_eq_false.mp idle
  refine ⟨rfl, rfl, rfl, undeferred, none_waits, abandoned, taken, sane, .refl, ?_, by simp, ?_⟩
  · rw [jobs]
    rfl
  · rw [jobs]
    simp

namespace Pledges

theorem determined_job (h : e.Pledges d ms) (hj : j ∈ d.jobs) : e.Determined j.path :=
  h.determined j.path (h.masters ▸ List.mem_map_of_mem hj)

/-- The outcome of an active job is the one that its master had from the start. -/
theorem outcome_eq (h : e.Pledges d ms) (hj : j ∈ d.jobs) :
    ∃ o, d.outcome? j.path = some o ∧ e.outcome? j.path = some o := by
  have determined := h.determined_job hj
  obtain ⟨o, known⟩ := Option.isSome_iff_exists.mp determined.outcome
  exact ⟨o, (determined.outcome_saved h.graph h.saves).trans known, known⟩

/-- The jobs come on, and all else stays. -/
theorem onward (h : e.Pledges d ms) (ground : d.SameGround d')
    (course : Desk.Course Rules.endless (d.desk .steady true) (d'.desk .steady true))
    (roster : d'.roster = d.roster) (abandoned : d'.abandoned = d.abandoned)
    (each : ∀ j ∈ d'.jobs, e.Pledged d'.inFlight j) : e.Pledges d' ms where
  options := ground.options.trans h.options
  graph := ground.graph.trans h.graph
  mode := ground.mode.trans h.mode
  undeferred := ground.deferred.trans h.undeferred
  none_waits := by rw [ground.pending, h.none_waits]
  abandoned := abandoned.trans h.abandoned
  taken := h.taken
  sane := Desk.course_sane course h.sane
  saves := by
    have saved := Desk.course_saves course fun _ => id
    change Sandbox.Saves d.options.statePath d.site d'.site at saved
    rw [h.options] at saved
    exact h.saves.trans saved
  masters := by
    have paths := congrArg (List.map Prod.snd) roster
    simp only [Engine.roster, List.map_map] at paths
    exact Eq.trans paths h.masters
  determined := h.determined
  each := each

end Pledges

section Workers

variable {σ : Type}

theorem persist_inFlight [Storage σ] (e : Engine σ) : e.persist.inFlight = e.inFlight := by
  unfold persist
  split
  next => rfl
  next =>
    dsimp only
    split <;> rfl

variable [Workshop σ]

theorem finishJob_inFlight (e : Engine σ) (id : Nat) (o : Outcome) (now : Nat) :
    (e.finishJob id o now).inFlight = e.inFlight := by
  unfold finishJob
  split
  next => rfl
  next =>
    refine (persist_inFlight _).trans ?_
    split <;> rfl

theorem finishJob_abandoned (e : Engine σ) (id : Nat) (o : Outcome) (now : Nat) :
    (e.finishJob id o now).abandoned = e.abandoned := by
  cases found : e.jobs.find? fun k => k.id == id && k.isCompiling with
  | none => rw [finishJob_idle found]
  | some j => exact congrArg Core.abandoned (finishJob_core found o now)

end Workers

theorem collect_work {σ : Type} [Workshop σ] (e : Engine σ) (now : Nat) :
    e.SameWork (e.collect now) := by
  unfold collect
  split
  next => exact .refl e
  next w _ =>
    have free : e.SameWork ({ e with inFlight := none }.note (.collected w.job)) :=
      ⟨rfl, rfl, rfl, rfl⟩
    dsimp only
    split
    next => exact .refl e
    next => exact free.trans (finishJob_work _ _ _ _)
    next =>
      refine (free.trans ?_).trans (finishJob_work _ _ _ _)
      exact ⟨rfl, rfl, rfl, rfl⟩

/-- A result that is the outcome of the job that it is for leaves no job in the compiler. -/
theorem finishJob_each {id now : Nat}
    (unique : ∀ j ∈ d.jobs, ∀ k ∈ d.jobs, j.id = k.id → j = k)
    (others : ∀ j ∈ d.jobs, j.isCompiling = false → e.Pledged out j)
    (mine : ∀ j ∈ d.jobs, j.isCompiling = true → j.id = id ∧ e.Pledged out (j.finish o now)) :
    ∀ k ∈ (d.finishJob id o now).jobs, k.isCompiling = false ∧ e.Pledged out k := by
  cases found : d.jobs.find? fun k => k.id == id && k.isCompiling with
  | none =>
    rw [finishJob_idle found]
    intro k hk
    cases compiling : k.isCompiling with
    | false => exact ⟨rfl, others k hk compiling⟩
    | true =>
      have none_ := List.find?_eq_none.mp found k hk
      simp [(mine k hk compiling).1, compiling] at none_
  | some j =>
    have hj := List.mem_of_find?_eq_some found
    have compiling : j.id = id ∧ j.isCompiling = true := by simpa using List.find?_some found
    have jobs : (d.finishJob id o now).jobs =
        d.jobs.map fun k => if k.id == id then k.finish o now else k :=
      congrArg Core.jobs (finishJob_core found o now)
    rw [jobs]
    intro k hk
    obtain ⟨i, hi, rfl⟩ := List.mem_map.mp hk
    split
    next same =>
      obtain rfl := unique i hi j hj ((beq_iff_eq.mp same).trans compiling.1.symm)
      exact ⟨rfl, (mine i hi compiling.2).2⟩
    next other =>
      cases compiling' : i.isCompiling with
      | false => exact ⟨rfl, others i hi compiling'⟩
      | true => exact absurd (mine i hi compiling').1 (by simpa using other)

/-- The source of a job is read where its outcome is looked up. -/
theorem outcome_of_request (input : j.input = d.graph.absolute j.path) :
    (∀ cause, d.request j = .error cause → d.outcome? j.path = some (failedOutcome cause.message)) ∧
      ∀ r, d.request j = .ok r → d.outcome? j.path = (d.site.scriptOf r.master).outcome? [] := by
  unfold request outcome?
  rw [input]
  cases Storage.readText d.site (d.graph.absolute j.path) with
  | error cause =>
    refine ⟨fun cause' same => ?_, fun r same => nomatch same⟩
    rw [Except.error.inj same]
  | ok source =>
    refine ⟨fun cause same => (nomatch same), fun r same => ?_⟩
    rw [← Except.ok.inj same]

theorem runHere_known {r : Request} (known : (d.site.scriptOf r.master).outcome? [] = some o) :
    (d.runHere r).1 = o ∧ (d.runHere r).2.jobs = d.jobs ∧
      (d.runHere r).2.inFlight = d.inFlight := by
  have played := (Script.play_outcome known d.site r true).resolve_right fun waits =>
    nomatch waits.1
  unfold runHere
  dsimp only
  split
  next o' ended =>
    obtain rfl := Progress.finished.inj (played.symm.trans ended)
    exact ⟨rfl, rfl, rfl⟩
  next other => exact absurd played (other o)

theorem sendWorker_known {r : Request} (known : (d.site.scriptOf r.master).outcome? [] = some o) :
    (d.sendWorker r).jobs = d.jobs ∧
      ∃ w, (d.sendWorker r).inFlight = some w ∧ w.job = r.job ∧ w.Brings o := by
  refine ⟨rfl, _, rfl, rfl, ?_⟩
  rcases Script.play_outcome known d.site r false with ended | ⟨-, lines, deaf, next, waits, later⟩
  · exact (congrArg (fun p => Worker.Brings ⟨r, .ofProgress p⟩ o) ended).mpr rfl
  · exact (congrArg (fun p => Worker.Brings ⟨r, .ofProgress p⟩ o) waits).mpr later

theorem updateJob_mem (sane : (d.desk .steady true).Sane) (hj : j ∈ d.jobs) (f : Job → Job)
    {i : Job} (hi : i ∈ (d.updateJob j.id f).jobs) : i = f j ∨ i ∈ d.jobs ∧ i.id ≠ j.id := by
  obtain ⟨k, hk, rfl⟩ := List.mem_map.mp hi
  split
  next same =>
    obtain rfl := sane.job_eq hk hj (beq_iff_eq.mp same)
    exact .inl rfl
  next other => exact .inr ⟨hk, by simpa using other⟩

/-- A job that ends where it was started leaves nothing in the compiler. -/
theorem finishJob_started (h : e.Pledges d ms) (rests : d.core.Rests) (hj : j ∈ d.jobs)
    (known : e.outcome? j.path = some o) (now wall stop : Nat)
    (jobs : d'.jobs = (d.updateJob j.id fun k => k.start now wall).jobs) :
    ∀ k ∈ (d'.finishJob j.id o stop).jobs, k.isCompiling = false ∧ e.Pledged none k := by
  have mem {i : Job} (hi : i ∈ d'.jobs) : i = j.start now wall ∨ i ∈ d.jobs ∧ i.id ≠ j.id :=
    updateJob_mem h.sane hj (fun k => k.start now wall) (jobs ▸ hi)
  refine finishJob_each (fun i hi k hk same => ?_) (fun i hi idle => ?_) fun i hi compiling => ?_
  · rcases mem hi with rfl | ⟨hi, other⟩
    · rcases mem hk with rfl | ⟨hk, other⟩
      · rfl
      · exact absurd same.symm other
    · rcases mem hk with rfl | ⟨hk, other'⟩
      · exact absurd same other
      · exact h.sane.job_eq hi hk same
  · rcases mem hi with rfl | ⟨hi, -⟩
    · cases idle
    · exact (h.each i hi).idle idle none
  · rcases mem hi with rfl | ⟨hi, -⟩
    · have pledged := (h.each j hj).finished known stop none
      exact ⟨rfl, pledged.input, pledged.output, pledged.complete, fun busy => nomatch busy⟩
    · have idle := rests.idle i hi
      simp [idle] at compiling

/-- A job that is started has its outcome at once, or its worker brings it. On the calling thread
it has it at once. -/
theorem startJob_each (h : e.Pledges d ms) (rests : d.core.Rests)
    (first : d.jobs.find? Job.isQueued = some j) (now : Nat) :
    (∀ k ∈ (d.startJob j now).jobs, e.Pledged (d.startJob j now).inFlight k) ∧
      (j.immediate = true → (d.startJob j now).inFlight = none ∧
        ∀ k ∈ (d.startJob j now).jobs, k.isCompiling = false) := by
  have hj := List.mem_of_find?_eq_some first
  obtain ⟨o, here_, known⟩ := h.outcome_eq hj
  have input : j.input = d.graph.absolute j.path := by rw [(h.each j hj).input, h.graph]
  obtain ⟨unread, script⟩ := outcome_of_request input
  have handed (r : Request) : Workshop.handOver d.site r = .taken :=
    h.saves.alike.workers.trans h.taken
  obtain ⟨begun, begun_eq⟩ : ∃ begun, begun = d.markStarted j now := ⟨_, rfl⟩
  have jobs : begun.jobs = (d.updateJob j.id fun k => k.start now d.wall).jobs := begun_eq ▸ rfl
  have free : begun.inFlight = none := begun_eq ▸ (idle_iff.mp rests).2
  have played {r : Request} (read : d.request j = .ok r) :
      (begun.site.scriptOf r.master).outcome? [] = some o := by
    rw [begun_eq]
    exact (script r read).symm.trans here_
  have ended {f : Engine Sandbox} (same : f.jobs = begun.jobs) (out : f.inFlight = none)
      (stop : Nat) :
      (∀ k ∈ (f.finishJob j.id o stop).jobs, e.Pledged (f.finishJob j.id o stop).inFlight k) ∧
        (j.immediate = true → (f.finishJob j.id o stop).inFlight = none ∧
          ∀ k ∈ (f.finishJob j.id o stop).jobs, k.isCompiling = false) := by
    have each := finishJob_started h rests hj known now d.wall stop (same.trans jobs)
    have left : (f.finishJob j.id o stop).inFlight = none := (finishJob_inFlight ..).trans out
    rw [left]
    exact ⟨fun k hk => (each k hk).2, fun _ => ⟨rfl, fun k hk => (each k hk).1⟩⟩
  refine startJob_cases (P := fun f => (∀ k ∈ f.jobs, e.Pledged f.inFlight k) ∧
    (j.immediate = true → f.inFlight = none ∧ ∀ k ∈ f.jobs, k.isCompiling = false)) d j now
    (fun message failed => ?_) (fun r read _ => ?_) (fun r _ _ lost => ?_) (fun r read away _ => ?_)
  · rw [← begun_eq]
    rcases failed with ⟨cause, failed, rfl⟩ | ⟨r, reason, -, -, refused⟩
    · obtain rfl := Option.some.inj ((unread cause failed).symm.trans here_)
      exact ended rfl free now
    · cases (handed r).symm.trans refused
  · obtain ⟨outcome, same, out⟩ := runHere_known (d := begun) (played read)
    rw [← begun_eq, outcome]
    exact ended same (out.trans free) _
  · cases (handed r).symm.trans lost
  · rw [← begun_eq]
    refine ⟨?_, fun immediate => absurd (away.symm.trans immediate) nofun⟩
    obtain ⟨same, w, out, job, brings⟩ := sendWorker_known (d := begun) (played read)
    have kept : (begun.sendWorker r).persist.jobs = begun.jobs := by
      rw [jobs_eq_of_core (persist_core _), same]
    rw [kept, persist_inFlight, out, jobs]
    intro i hi
    rcases updateJob_mem h.sane hj _ hi with rfl | ⟨hi, -⟩
    · exact (h.each j hj).started now d.wall (job.trans (request_ids read).1) known brings
    · exact (h.each i hi).idle (rests.idle i hi) _

theorem startJob_pledges (h : e.Pledges d ms) (rests : d.core.Rests)
    (first : d.jobs.find? Job.isQueued = some j) (now : Nat) :
    e.Pledges (d.startJob j now) ms := by
  obtain ⟨idle, free⟩ := idle_iff.mp rests
  have abandoned := (startJob_started rests h.sane.kept.ordered first now).abandoned
  exact h.onward (d.startJob_ground j now)
    (startJob_course Stage.maySave_steady now idle free first) (d.startJob_work j now).roster
    abandoned (startJob_each h rests first now).1

theorem drain_pledges (h : e.Pledges d ms) (now : Nat) : e.Pledges (d.drain now).2 ms :=
  drain_preserves (P := fun d => e.Pledges d ms)
    (fun idle free first h => startJob_pledges h (idle_iff.mpr ⟨idle, free⟩) first now) h

theorem advance_pledges (h : e.Pledges d ms) (now : Nat) : e.Pledges (d.advance now).2 ms := by
  unfold advance
  split
  next => exact drain_pledges h now
  next => exact h

/-- The worker hands over what it brought. -/
theorem collect_each (h : e.Pledges d ms) (now : Nat) :
    (∀ k ∈ (d.collect now).jobs, e.Pledged (d.collect now).inFlight k) ∧
      (d.collect now).abandoned = d.abandoned := by
  unfold collect
  cases out : d.inFlight with
  | none => exact ⟨h.each, rfl⟩
  | some w =>
    have brought {i : Job} (hi : i ∈ d.jobs) (compiling : i.isCompiling = true) :
        ∃ o, w.job = i.id ∧ e.outcome? i.path = some o ∧ w.Brings o := by
      obtain ⟨w', o, out', mine⟩ := (h.each i hi).compiling compiling
      obtain rfl := Option.some.inj (out.symm.trans out')
      exact ⟨o, mine⟩
    have ended {f : Engine Sandbox} (jobs : f.jobs = d.jobs) (left : f.inFlight = none)
        {o : Outcome}
        (mine : ∀ i ∈ d.jobs, i.isCompiling = true → e.outcome? i.path = some o) :
        ∀ k ∈ (f.finishJob w.job o now).jobs,
          e.Pledged (f.finishJob w.job o now).inFlight k := by
      rw [finishJob_inFlight, left]
      intro k hk
      refine (finishJob_each (d := f) ?_ ?_ ?_ k hk).2
      · rw [jobs]
        exact fun i hi k hk => h.sane.job_eq hi hk
      · rw [jobs]
        exact fun i hi idle => (h.each i hi).idle idle none
      · rw [jobs]
        intro i hi compiling
        obtain ⟨-, job, -⟩ := brought hi compiling
        exact ⟨job.symm, (h.each i hi).finished (mine i hi compiling) now none⟩
    dsimp only
    split
    next => exact ⟨h.each, rfl⟩
    next o state =>
      refine ⟨ended ?_ ?_ fun i hi compiling => ?_, finishJob_abandoned ..⟩
      · rfl
      · rfl
      · obtain ⟨o', -, known, brings⟩ := brought hi compiling
        simp only [Worker.Brings, state] at brings
        rw [brings, known]
    next state =>
      refine ⟨ended ?_ ?_ fun i hi compiling => ?_, finishJob_abandoned ..⟩
      · rfl
      · rfl
      · obtain ⟨o', -, -, brings⟩ := brought hi compiling
        simp [Worker.Brings, state] at brings

theorem collect_pledges (h : e.Pledges d ms) (now : Nat) : e.Pledges (d.collect now) ms := by
  obtain ⟨each, abandoned⟩ := collect_each h now
  exact h.onward (d.collect_ground now) (collect_course Stage.maySave_steady d now)
    (d.collect_work now).roster abandoned each

theorem resume_trace {σ : Type} [Storage σ] (e : Engine σ) (stray : Bool) (w : Worker) :
    ∃ trace, (e.resume stray w).2 = { e with trace } := by
  unfold resume
  split
  next => split <;> exact ⟨_, rfl⟩
  next => exact ⟨_, rfl⟩

theorem resumeStrays_trace {σ : Type} [Storage σ] (chosen : Worker → Bool) (strays : List Worker)
    (e : Engine σ) : ∃ trace, (e.resumeStrays chosen strays).2 = { e with trace } := by
  induction strays generalizing e with
  | nil => exact ⟨_, rfl⟩
  | cons w rest ih =>
    unfold resumeStrays
    split
    next =>
      obtain ⟨trace, same⟩ := e.resume_trace true w
      obtain ⟨trace', same'⟩ := ih (e.resume true w).2
      exact ⟨trace', same'.trans (by rw [same])⟩
    next => exact ih e

/-- A worker that is let go still brings what it was to bring. -/
theorem resume_brings {w : Worker} (brings : w.Brings o) (d : Engine Sandbox) :
    ∃ w', (d.resume false w).1 = some w' ∧ w'.job = w.job ∧ w'.Brings o := by
  unfold resume
  split
  next lines deaf next state =>
    simp only [Worker.Brings, state] at brings
    rcases Script.play_outcome brings d.site w.request false with
      ended | ⟨-, lines', deaf', next', waits, later⟩
    · rw [ended]
      exact ⟨_, rfl, rfl, rfl⟩
    · rw [waits]
      exact ⟨_, rfl, rfl, later⟩
  next => exact ⟨w, rfl, rfl, brings⟩

theorem release_worker (d : Engine Sandbox) (master : Option Path) :
    (d.release master).jobs = d.jobs ∧ (d.release master).abandoned = d.abandoned ∧
      ∀ w o, d.inFlight = some w → w.Brings o →
        ∃ w', (d.release master).inFlight = some w' ∧ w'.job = w.job ∧ w'.Brings o := by
  obtain ⟨trace, freed⟩ :=
    resumeStrays_trace (fun w => master.all fun p => w.request.master == p) d.strays d
  unfold release
  dsimp only
  rw [freed]
  generalize (d.resumeStrays _ d.strays).1 = strays
  split
  next w out =>
    split
    next =>
      obtain ⟨trace', resumed⟩ := ({ d with strays, trace } : Engine Sandbox).resume_trace false w
      rw [resumed]
      refine ⟨rfl, rfl, fun w' o same brings => ?_⟩
      obtain rfl : w' = w := Option.some.inj (same.symm.trans out)
      exact resume_brings brings _
    next => exact ⟨rfl, rfl, fun w' o same brings => ⟨w', same, rfl, brings⟩⟩
  next => exact ⟨rfl, rfl, fun w' o same brings => ⟨w', same, rfl, brings⟩⟩

theorem release_pledges (h : e.Pledges d ms) (master : Option Path) :
    e.Pledges (d.release master) ms := by
  obtain ⟨jobs, abandoned, worker⟩ := d.release_worker master
  refine h.onward (d.release_ground master) (d.release_course master true) ?_ abandoned ?_
  · rw [roster, roster, jobs]
  · rw [jobs]
    intro j hj
    have pledged := h.each j hj
    refine ⟨pledged.input, pledged.output, pledged.complete, fun compiling => ?_⟩
    obtain ⟨w, o, out, mine, known, brings⟩ := pledged.compiling compiling
    obtain ⟨w', out', same, brings'⟩ := worker w o out brings
    exact ⟨w', o, out', same.trans mine, known, brings'⟩

theorem timePasses_pledges (h : e.Pledges d ms) (millis : Nat) :
    e.Pledges { d with clock := d.clock + millis } ms :=
  h.onward ⟨rfl, rfl, rfl, rfl, rfl⟩ .refl rfl rfl h.each

theorem addJob_inFlight {σ : Type} [Workshop σ] (e : Engine σ) (p : Path) (immediate : Bool) :
    (e.addJob p immediate).inFlight = e.inFlight := by
  unfold addJob suspendHost
  split <;> exact persist_inFlight _

/-- A master with a known outcome gets its job. -/
theorem addJob_pledges (h : e.Pledges d ms) (accepted : d.refusal? m = none)
    (determined : e.Determined m) (immediate : Bool) :
    e.Pledges (d.addJob m immediate) (ms ++ [m]) := by
  have course : Desk.Course Rules.endless (d.desk .steady true)
      ((d.addJob m immediate).desk .steady true) :=
    addJob_course immediate true .steady trivial accepted
  have saved := Desk.course_saves course fun _ => id
  have ground : ({ d with pending := (d.pending.remove m).2 } : Engine Sandbox).SameGround
      (d.addJob m immediate) := by
    unfold addJob suspendHost
    split
    all_goals
      refine .trans ?_ (persist_ground _)
      exact ⟨rfl, rfl, rfl, rfl, rfl⟩
  have core := d.addJob_core m immediate
  have jobs : (d.addJob m immediate).jobs = d.jobs ++ [d.newJob m immediate] :=
    congrArg Core.jobs core
  change Sandbox.Saves d.options.statePath d.site _ at saved
  rw [h.options] at saved
  refine ⟨ground.options.trans h.options, ground.graph.trans h.graph, ground.mode.trans h.mode,
    ground.deferred.trans h.undeferred, ?_, (congrArg Core.abandoned core).trans h.abandoned,
    h.taken, Desk.course_sane course h.sane, h.saves.trans saved, ?_, ?_, ?_⟩
  · rw [ground.pending]
    exact remove_empty h.none_waits m
  · rw [jobs, List.map_append, h.masters]
    rfl
  · intro p hp
    rcases List.mem_append.mp hp with old | new
    · exact h.determined p old
    · rw [List.mem_singleton.mp new]
      exact determined
  · rw [jobs, addJob_inFlight]
    intro j hj
    rcases List.mem_append.mp hj with old | new
    · exact h.each j old
    · rw [List.mem_singleton.mp new]
      have place : d.graph = e.graph := h.graph
      exact ⟨congrArg (·.absolute m) place,
        congrArg (fun g => g.absolute (g.artifactPath m)) place, fun complete => (nomatch complete),
        fun compiling => nomatch compiling⟩

end Engine

end StoryBuild
