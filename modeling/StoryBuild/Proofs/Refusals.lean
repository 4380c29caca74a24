import StoryBuild.Proofs.DeskFacts
import StoryBuild.Proofs.Outcomes
import StoryBuild.Sandbox

namespace StoryBuild

namespace FileGraph

variable {σ : Type} [Storage σ] {g new : FileGraph}

/-- Whether masters are known as such: the files without parents, and the masters on record. -/
structure KnowsMasters (g : FileGraph) : Prop where
  alone : ∀ f ∈ g.files, f.isMaster = true → g.isMaster f.path = true
  recorded : ∀ f ∈ g.files, ∀ m ∈ f.masters, g.isMaster m = true

theorem Owned.knowsMasters (owned : g.Owned) : g.KnowsMasters := by
  have alone : ∀ f ∈ g.files, f.isMaster = true → g.isMaster f.path = true := by
    intro f hf master
    cases found : g.file? f.path with
    | none =>
      have other := List.find?_eq_none.mp found f hf
      simp [Path.beq_iff] at other
    | some r =>
      obtain ⟨hr, same⟩ := file_found found
      -- Two records of one path have the same parents, since these go by the path.
      have parents : r.parents = f.parents := by
        rw [owned.parents r hr, owned.parents f hf]
        simp only [parentsOf, Path.beq_congr same]
      rwa [isMaster, found, Option.any_some, SourceFile.isMaster, parents]
  refine ⟨alone, fun f hf m hm => ?_⟩
  rw [owned.masters f hf] at hm
  obtain ⟨k, hk, rfl⟩ := List.mem_map.mp hm
  obtain ⟨hk, master⟩ := List.mem_filter.mp hk
  simp only [Bool.and_eq_true] at master
  exact alone k hk master.1

theorem KnowsMasters.of_linkage (known : g.KnowsMasters)
    (links : new.mapFiles SourceFile.linkage = g.mapFiles SourceFile.linkage) :
    new.KnowsMasters := by
  constructor
  all_goals
    intro f hf
    obtain ⟨k, hk, same⟩ := mem_of_view links hf
    simp only [isMaster_of_linkage links]
  · have path : k.path = f.path := (congrArg SourceFile.path same :)
    have parents : k.parents = f.parents := (congrArg SourceFile.parents same :)
    rw [SourceFile.isMaster, ← parents, ← path]
    exact known.alone k hk
  · have masters : k.masters = f.masters := (congrArg SourceFile.masters same :)
    rw [← masters]
    exact known.recorded k hk

/-- The stale masters are files without parents. -/
theorem staleAmong_mem (g : FileGraph) {masters : List SourceFile} {s : σ} {p : Path}
    (hp : p ∈ (g.staleAmong s masters).1) : ∃ f ∈ masters, f.path = p := by
  induction masters generalizing s with
  | nil => cases hp
  | cons f rest ih =>
    unfold staleAmong at hp
    dsimp only at hp
    have others (later : p ∈ (g.staleAmong (g.isStale s f).2 rest).1) :
        ∃ k ∈ f :: rest, k.path = p := by
      obtain ⟨k, hk, same⟩ := ih later
      exact ⟨k, List.mem_cons_of_mem _ hk, same⟩
    split at hp
    next =>
      rcases List.mem_cons.mp hp with same | later
      · exact ⟨f, List.mem_cons_self .., same.symm⟩
      · exact others later
    next => exact others hp

theorem knowsMasters_relink (g : FileGraph) : g.relink.KnowsMasters :=
  (owned_rebuildOwnership g.resolveAll).knowsMasters

theorem refresh_knowsMasters (known : g.KnowsMasters) (s : σ) (p : Path) :
    (g.refresh s p).2.graph.KnowsMasters := by
  unfold refresh
  split
  next => exact known
  next => exact knowsMasters_relink _

theorem rebuild_knowsMasters {s : σ} (done : (g.rebuild s).1 = none) :
    (g.rebuild s).2.graph.KnowsMasters := by
  unfold rebuild at done ⊢
  dsimp only at done ⊢
  split
  next failed =>
    rw [failed] at done
    cases done
  next => exact knowsMasters_relink _

theorem build_knowsMasters {root : Path} {options : GraphOptions} {s : σ} {reading : Reading σ}
    (built : build root options s = .ok reading) : reading.graph.KnowsMasters := by
  have done := rebuild_of_build built
  have known := rebuild_knowsMasters (g := empty root options) (s := s) (by rw [done])
  rwa [done] at known

end FileGraph

namespace Engine

variable {σ : Type} [Workshop σ]

/-- Whether a happening is a look at the whole disk that fails. -/
def FailsToBuild (e : Engine σ) : Act σ → Prop
  | .rebuildGraph => ∃ cause, e.rebuildGraph.1 = .error (.storage cause)
  | .rebuildIfRequired => ∃ cause, e.rebuildIfRequired.1 = .error (.storage cause)
  | _ => False

/-- Whether no look at the whole disk fails in a run. -/
def AlwaysBuilds : Engine σ → List (Act σ) → Prop
  | _, [] => True
  | e, a :: rest => ¬ e.FailsToBuild a ∧ AlwaysBuilds (e.act a) rest

theorem rebuildGraph_knowsMasters {e : Engine σ} (known : e.graph.KnowsMasters)
    (built : ¬ ∃ cause, e.rebuildGraph.1 = .error (.storage cause)) :
    e.rebuildGraph.2.graph.KnowsMasters := by
  unfold rebuildGraph at built ⊢
  split
  next => exact known
  next idle =>
    simp only [idle] at built
    dsimp only
    split
    next cause failed => simp [failed] at built
    next done => exact FileGraph.rebuild_knowsMasters done

theorem look_knowsMasters {e : Engine σ} (known : e.graph.KnowsMasters) {a : Act σ}
    (built : ¬ e.FailsToBuild a) : (e.look a).graph.KnowsMasters := by
  cases a with
  | sourceChanged p => exact FileGraph.refresh_knowsMasters known e.site p
  | compileAll force =>
    unfold look targets
    dsimp only
    split <;> exact known
  | rebuildGraph => exact rebuildGraph_knowsMasters known built
  | rebuildIfRequired =>
    unfold FailsToBuild rebuildIfRequired at built
    unfold look rebuildIfRequired
    dsimp only at built ⊢
    split
    next required =>
      rw [if_pos required] at built
      have after : e.rebuildGraph.2.graph.KnowsMasters := by
        refine rebuildGraph_knowsMasters known fun ⟨cause, failed⟩ => built ⟨cause, ?_⟩
        generalize e.rebuildGraph = result at failed ⊢
        obtain ⟨_, after⟩ := result
        cases failed
        rfl
      split
      next h => rwa [h] at after
      next h => rwa [h] at after
    next => exact known
  | _ => exact known

theorem act_knowsMasters {e : Engine σ} (known : e.graph.KnowsMasters) {a : Act σ}
    (built : ¬ e.FailsToBuild a) : (e.act a).graph.KnowsMasters :=
  (look_knowsMasters known built).of_linkage
    (Desk.course_links (act_course Rules.free_lenient (e.allows_free a)))

theorem run_knowsMasters {e : Engine σ} (known : e.graph.KnowsMasters) {acts : List (Act σ)}
    (built : e.AlwaysBuilds acts) : (e.run acts).graph.KnowsMasters := by
  induction acts generalizing e with
  | nil => exact known
  | cons a rest ih => exact ih (act_knowsMasters known built.1) built.2

theorem enqueue_accepted {e : Engine σ} {p : Path} (immediate : Bool)
    (accepted : e.refusal? p = none) :
    ∃ after, e.enqueue p immediate = (.ok e.nextId, after) ∧
      ∀ q, after.graph.isMaster q = e.graph.isMaster q := by
  obtain ⟨answer, course⟩ := enqueueAt_course Rules.free_lenient immediate true e.clock trivial
    accepted
  exact ⟨_, Prod.ext answer rfl, Desk.course_isMaster course⟩

theorem enqueue_refused {e : Engine σ} {p : Path} {refusal : RequestError} (immediate : Bool)
    (refused : e.refusal? p = some refusal) :
    e.enqueue p immediate = (.error refusal, e.noteRefusal refusal) :=
  (enqueueAt_refused_course (R := Rules.free) .steady immediate true e.clock refused).1

theorem park_persist_isMaster (e : Engine σ) (p q : Path) :
    (if (e.park p).1 then (e.park p).2.persist else (e.park p).2).graph.isMaster q =
      e.graph.isMaster q := by
  have course := persist_if_course (R := Rules.free) Stage.maySave_steady (e.park p).1 (e.park p).2
  exact Desk.course_isMaster course q

/-- Masters are queued, or wait for the next batch, to the last one. -/
theorem compileOwners_accepted (immediate : Bool) {masters : List Path} {e : Engine σ}
    (all : ∀ p ∈ masters, e.graph.isMaster p = true) :
    (compileOwners immediate masters e).1.isOk = true := by
  induction masters generalizing e with
  | nil => rfl
  | cons p rest ih =>
    have others : ∀ q ∈ rest, e.graph.isMaster q = true :=
      fun q hq => all q (List.mem_cons_of_mem _ hq)
    unfold compileOwners
    have master := all p (List.mem_cons_self ..)
    cases active : e.hasActiveJob p with
    | false =>
      obtain ⟨after, answer, same⟩ := enqueue_accepted immediate
        (refusal_none_of_free master active)
      rw [answer]
      have rest_ok := ih (e := after) fun q hq => (same q).trans (others q hq)
      dsimp only
      generalize compileOwners immediate rest after = result at rest_ok ⊢
      obtain ⟨_ | _, _⟩ := result
      · cases rest_ok
      · rfl
    | true =>
      rw [enqueue_refused immediate (refusal_of_active master active)]
      exact ih fun q hq => (park_persist_isMaster _ p q).trans (others q hq)

theorem compileEach_accepted {masters : List Path} {e : Engine σ}
    (all : ∀ p ∈ masters, e.graph.isMaster p = true) :
    (compileEach masters e).1.isOk = true := by
  induction masters generalizing e with
  | nil => rfl
  | cons p rest ih =>
    have others : ∀ q ∈ rest, e.graph.isMaster q = true :=
      fun q hq => all q (List.mem_cons_of_mem _ hq)
    unfold compileEach
    split
    next => exact ih others
    next free =>
      split
      next => exact ih fun q hq => (park_persist_isMaster e p q).trans (others q hq)
      next =>
        obtain ⟨after, answer, same⟩ := enqueue_accepted false
          (refusal_none_of_free (all p (List.mem_cons_self ..)) (by simpa using free))
        rw [answer]
        have rest_ok := ih (e := after) fun q hq => (same q).trans (others q hq)
        dsimp only
        generalize compileEach rest after = result at rest_ok ⊢
        obtain ⟨_ | _, _⟩ := result
        · cases rest_ok
        · rfl

theorem compileAll_accepted {e : Engine σ} (known : e.graph.KnowsMasters) (force : Bool) :
    (e.compileAll force).1.isOk = true := by
  have of_file : ∀ f ∈ e.graph.masterFiles, e.graph.isMaster f.path = true := by
    intro f hf
    obtain ⟨hf, master⟩ := List.mem_filter.mp hf
    exact known.alone f hf master
  have graph : (e.targets force).2.graph = e.graph := by
    unfold targets
    split <;> rfl
  have all : ∀ p ∈ (e.targets force).1, (e.targets force).2.graph.isMaster p = true := by
    intro p hp
    rw [graph]
    unfold targets at hp
    split at hp
    next =>
      obtain ⟨f, hf, rfl⟩ := List.mem_map.mp hp
      exact of_file f hf
    next =>
      obtain ⟨f, hf, rfl⟩ := e.graph.staleAmong_mem (List.mem_filter.mp hp).1
      exact of_file f hf
  exact compileEach_accepted all

/-- A compile of a file is refused only before anything is queued: for a path that is not tracked,
or for a file without a master. -/
theorem compileFile_refused {e : Engine σ} (known : e.graph.KnowsMasters) {p : Path}
    {immediate : Bool} (refused : (e.compileFile p immediate).1.isOk = false) :
    (e.compileFile p immediate).2 = e ∧ ∀ f, e.graph.file? p = some f → f.isInvalid = true := by
  unfold compileFile at refused ⊢
  cases found : e.graph.file? p with
  | none => exact ⟨rfl, by simp⟩
  | some f =>
    simp only [found] at refused
    have all : ∀ m ∈ (if f.isMaster then [p] else f.masters), e.graph.isMaster m = true := by
      intro m hm
      split at hm
      next master =>
        rw [List.mem_singleton.mp hm, FileGraph.isMaster, found]
        exact master
      next => exact known.recorded f (FileGraph.file_found found).1 m hm
    have invalid (none_ : (if f.isMaster then [p] else f.masters).isEmpty = true) :
        f.isInvalid = true := by
      unfold SourceFile.isInvalid
      unfold SourceFile.isMaster at none_
      split at none_
      next => cases none_
      next included => simp [included, none_]
    dsimp only at refused ⊢
    generalize (if f.isMaster then [p] else f.masters) = masters at refused all invalid ⊢
    split
    next none_ => exact ⟨rfl, fun k same => Option.some.inj same ▸ invalid none_⟩
    next some_ =>
      rw [if_neg some_] at refused
      split at refused
      next => cases refused
      next => rw [compileOwners_accepted immediate all] at refused; cases refused

/-- Whether a happening is a request that is refused. A look at the whole disk that fails is no
refusal. -/
def Refuses (e : Engine σ) : Act σ → Prop
  | .enqueue master immediate now => (e.enqueueAt master immediate now).1.isOk = false
  | .compileFile p immediate => (e.compileFile p immediate).1.isOk = false
  | .compileAll force => (e.compileAll force).1.isOk = false
  | .rebuildGraph => e.rebuildGraph.1 = .error .compileInProgress
  | .rebuildIfRequired => e.rebuildIfRequired.1 = .error .compileInProgress
  | .loadAndRestore => e.loadAndRestore.1.isOk = false
  | _ => False

theorem loadAndRestore_refused {e : Engine σ} (refused : e.loadAndRestore.1.isOk = false) :
    e.loadAndRestore.2 = e := by
  unfold loadAndRestore at refused ⊢
  split
  next => rfl
  next p kept =>
    rw [kept] at refused
    dsimp only at refused
    cases loaded : Snapshot.load e.site p with
    | error cause => cases cause <;> rfl
    | ok found =>
      rw [loaded] at refused
      cases found with
      | none => rfl
      | some s => cases refused

theorem rebuildGraph_refused {e : Engine σ}
    (refused : e.rebuildGraph.1 = .error .compileInProgress) : e.rebuildGraph.2 = e := by
  unfold rebuildGraph at refused ⊢
  split
  next => rfl
  next idle =>
    rw [if_neg idle] at refused
    dsimp only at refused
    split at refused <;> cases refused

theorem rebuildIfRequired_refused {e : Engine σ}
    (refused : e.rebuildIfRequired.1 = .error .compileInProgress) :
    e.rebuildIfRequired.2 = e := by
  unfold rebuildIfRequired at refused ⊢
  split
  next required =>
    rw [if_pos required] at refused
    have same := rebuildGraph_refused (e := e)
    generalize e.rebuildGraph = result at refused same ⊢
    obtain ⟨_ | _, after⟩ := result
    · cases refused
      exact same rfl
    · cases refused
  next => rfl

theorem enqueueAt_unchanged {e : Engine σ} {master : Path} {immediate : Bool} {now : Nat}
    (refused : (e.enqueueAt master immediate now).1.isOk = false) :
    ∃ lines, (e.enqueueAt master immediate now).2 = e.logAll lines := by
  cases h : e.refusal? master with
  | none =>
    obtain ⟨answer, -⟩ := enqueueAt_course Rules.free_lenient immediate true now trivial h
    rw [answer] at refused
    cases refused
  | some refusal =>
    rw [(enqueueAt_refused_course (R := Rules.free) .steady immediate true now h).1]
    cases refusal with
    | alreadyQueued p => exact ⟨[_], rfl⟩
    | _ => exact ⟨[], rfl⟩

/-- In a run in which the graph can be built whenever it is to be, a refused request adds at most
lines to the log: the jobs, the waiting masters, the mode, the graph, what the host was told and the
disk are as before. A compile of everything is never refused, and a compile of a file only if the
file is not tracked or has no master. -/
theorem refused_adds_log_lines {root : Path} {options : GraphOptions} {s : σ}
    {reading : FileGraph.Reading σ} (built : FileGraph.build root options s = .ok reading)
    (settings : EngineOptions) (site : σ) (dawn : Nat) (acts : List (Act σ))
    (builds : (fresh reading.graph settings site dawn).AlwaysBuilds acts) :
    let now := (fresh reading.graph settings site dawn).run acts
    (∀ a, now.Refuses a → ∃ lines, now.act a = now.logAll lines) ∧
      (∀ force, ¬ now.Refuses (.compileAll force)) ∧
      ∀ p immediate, now.Refuses (.compileFile p immediate) →
        ∀ f, now.graph.file? p = some f → f.isInvalid = true := by
  intro now
  have known : now.graph.KnowsMasters :=
    run_knowsMasters (FileGraph.build_knowsMasters built) builds
  have everything (force : Bool) : ¬ now.Refuses (.compileAll force) := by
    intro refused
    have accepted := compileAll_accepted known force
    rw [show (now.compileAll force).1.isOk = false from refused] at accepted
    cases accepted
  refine ⟨fun a refused => ?_, everything, fun p immediate refused =>
    (compileFile_refused known refused).2⟩
  cases a with
  | enqueue master immediate time => exact enqueueAt_unchanged refused
  | compileFile p immediate => exact ⟨[], (compileFile_refused known refused).1⟩
  | compileAll force => exact absurd refused (everything force)
  | rebuildGraph => exact ⟨[], rebuildGraph_refused refused⟩
  | rebuildIfRequired => exact ⟨[], rebuildIfRequired_refused refused⟩
  | loadAndRestore => exact ⟨[], loadAndRestore_refused refused⟩
  | _ => exact refused.elim

/-- A disk with one story. -/
def loneStory : Sandbox where
  disk := MemoryDisk.empty.addFile (.ofText "/story/a.ink") "INCLUDE part.ink".toUTF8

/-- Another story appears, and the part that both include. A compile of the part queues both. -/
def partAppears : List (Act Sandbox) :=
  [.siteChanged (loneStory.mapDisk fun d =>
      (d.addFile (.ofText "/story/b.ink") "INCLUDE part.ink".toUTF8).addFile
        (.ofText "/story/part.ink") .empty),
    .sourceChanged (.ofText "b.ink"), .sourceChanged (.ofText "part.ink"),
    .compileFile (.ofText "part.ink") false]

/-- While its job is active, a story is refused, and so is a rebuild. -/
theorem active_story_refused :
    ∃ reading, FileGraph.build (.ofText "/story") { extension := "ink" } loneStory = .ok reading ∧
      let start := fresh reading.graph { compileOnChange := false } reading.storage 0
      let now := start.run partAppears
      start.AlwaysBuilds partAppears ∧ now.jobs.map (·.path.text) = ["a.ink", "b.ink"] ∧
        now.Refuses (.enqueue (.ofText "a.ink") true 0) ∧
        (∃ lines, now.act (.enqueue (.ofText "a.ink") true 0) = now.logAll lines) ∧
        now.Refuses .rebuildGraph ∧ ∃ lines, now.act .rebuildGraph = now.logAll lines := by
  have wanted : ((FileGraph.build (.ofText "/story") { extension := "ink" }
      loneStory).toOption.map fun reading =>
        let start := fresh reading.graph { compileOnChange := false } reading.storage 0
        let now := start.run partAppears
        (now.jobs.map (·.path.text), (now.enqueueAt (.ofText "a.ink") true 0).1.isOk,
          now.isBusy)) = some (["a.ink", "b.ink"], false, true) := by decide +kernel
  cases built : FileGraph.build (.ofText "/story") { extension := "ink" } loneStory with
  | error cause => simp [built, Except.toOption] at wanted
  | ok reading =>
    simp only [built, Except.toOption, Option.map_some, Option.some.injEq, Prod.mk.injEq] at wanted
    obtain ⟨jobs, refused, busy⟩ := wanted
    have builds : (fresh reading.graph { compileOnChange := false } reading.storage 0).AlwaysBuilds
        partAppears := by
      simp [partAppears, AlwaysBuilds, FailsToBuild]
    have closed : ((fresh reading.graph { compileOnChange := false } reading.storage 0).run
        partAppears).Refuses .rebuildGraph := by
      simp only [Refuses, rebuildGraph, busy, if_true]
    obtain ⟨unchanged, -, -⟩ :=
      refused_adds_log_lines built { compileOnChange := false } reading.storage 0 partAppears builds
    exact ⟨reading, rfl, builds, jobs, refused, unchanged _ refused, closed, unchanged _ closed⟩

end Engine

end StoryBuild
