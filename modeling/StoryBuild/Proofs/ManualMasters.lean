import Mathlib.Data.List.Infix
import StoryBuild.Proofs.Dealings
import StoryBuild.Proofs.Refusals
import StoryBuild.Proofs.RestrictedMode

namespace StoryBuild.Engine

variable {σ : Type} [Workshop σ] {P : Path → Prop} {e : Engine σ} {m p : Path}

/-- The masters that a request is for. -/
def requested (e : Engine σ) : Act σ → List Path
  | .enqueue master _ _ => [master]
  | .compileAll true => e.graph.masterFiles.map SourceFile.path
  | .compileFile p _ =>
    match e.graph.file? p with
    | none => []
    | some f => if f.isMaster then [p] else f.masters
  | .restore s => s.resume.map Path.ofText
  | .loadAndRestore =>
    match e.options.statePath.map (Snapshot.load e.site) with
    | some (.ok (some s)) => s.resume.map Path.ofText
    | _ => []
  | _ => []

/-- The masters that a change, or a look for what is stale, brings up to be compiled. -/
def prompted (e : Engine σ) : Act σ → List Path
  | .sourceChanged p => (e.graph.refresh e.site p).1.filter fun q => !e.options.manualOnly q
  | .compileAll false => (e.graph.staleMasters e.site).1.filter fun q => !e.options.manualOnly q
  | _ => []

theorem look_keepsTo (h : e.KeepsTo P) (a : Act σ) : (e.look a).KeepsTo P := by
  obtain ⟨_, _, _, -, same⟩ := e.look_desk .steady a
  exact h.aside (e.look_core a) (congrArg Desk.pending same)

theorem reactAll_keepsTo {masters : List Path} (h : e.KeepsTo P)
    (fit : ∀ p ∈ masters.filter fun q => !e.options.manualOnly q, P p) (parked : Bool) :
    (masters.foldl reactTo (parked, e)).2.KeepsTo P := by
  induction masters generalizing e parked with
  | nil => exact h
  | cons p rest ih =>
    have options : (reactTo (parked, e) p).2.options = e.options := by
      obtain ⟨_, course, -⟩ := reactTo_course Rules.free_lenient parked true e p nofun
      exact Desk.course_options course
    have one : (reactTo (parked, e) p).2.KeepsTo P :=
      reactTo_keepsTo h (fun automatic => fit p (by simp [automatic])) parked
    refine ih one (fun q hq => fit q ?_) _
    rw [options] at hq
    exact List.mem_filter.mpr ⟨List.mem_cons_of_mem p (List.mem_filter.mp hq).1,
      (List.mem_filter.mp hq).2⟩

theorem sourceChanged_keepsTo (h : e.KeepsTo P) (fit : ∀ q ∈ e.prompted (.sourceChanged p), P q) :
    (e.sourceChanged p).2.KeepsTo P := by
  have read := look_keepsTo h (.sourceChanged p)
  unfold sourceChanged
  dsimp only
  split
  next => exact (reactAll_keepsTo read fit false).persist_if _
  next => exact read

/-- One happening brings in no masters but those that it is for and those that it brings up. -/
theorem act_keepsTo {a : Act σ} (h : e.KeepsTo P) (asked : ∀ p ∈ e.requested a, P p)
    (brought : ∀ p ∈ e.prompted a, P p) : (e.act a).KeepsTo P := by
  cases a with
  | enqueue master immediate now =>
    exact enqueueAt_keepsTo h (asked master (List.mem_singleton.mpr rfl)) immediate now
  | drainQueue now => exact drain_keepsTo h now
  | poll now => exact pollAt_keepsTo h now
  | workerFinished id o now => exact finishJob_keepsTo h id o now
  | queueDrained now => exact closeBatch_keepsTo h now
  | tryRestricted => exact tryRestricted_keepsTo h
  | exitRestricted now => exact exitRestricted_keepsTo h now
  | setMode mode now =>
    cases mode with
    | editing => exact exitRestricted_keepsTo h now
    | restricted => exact changeMode_keepsTo h .restricted
  | sourceChanged p => exact sourceChanged_keepsTo h brought
  | compileAll force =>
    cases force with
    | true => exact compileEach_keepsTo h asked
    | false =>
      exact compileEach_keepsTo (look_keepsTo h (.compileAll false)) brought
  | compileFile p immediate =>
    change (e.compileFile p immediate).2.KeepsTo P
    unfold compileFile
    split
    next => exact h
    next f found =>
      have owners : ∀ q ∈ if f.isMaster then [p] else f.masters, P q := by
        simpa [requested, found] using asked
      dsimp only
      generalize (if f.isMaster then [p] else f.masters) = masters at owners ⊢
      split
      next => exact h
      next =>
        split
        next => exact (parkAll_keepsTo h owners).persist_if _
        next => exact compileOwners_keepsTo h owners immediate
  | cancelAll => exact cancelAll_keepsTo h
  | shutdown => exact cancelWorker_keepsTo h
  | rebuildGraph => exact look_keepsTo h .rebuildGraph
  | rebuildIfRequired => exact look_keepsTo h .rebuildIfRequired
  | restore s => exact restore_keepsTo h s asked
  | loadAndRestore =>
    change e.loadAndRestore.2.KeepsTo P
    unfold loadAndRestore
    split
    next => exact h
    next file kept =>
      split
      next => exact h
      next => exact h
      next => exact h
      next s loaded =>
        exact restore_keepsTo h s (by simpa [requested, kept, loaded] using asked)
  | siteChanged site => exact look_keepsTo h (.siteChanged site)
  | workerTurn state =>
    refine h.aside ?_ rfl
    simp only [act, core, Option.map_map]
    rfl
  | release master =>
    exact h.aside (e.release_core master) (e.release_ground master).pending
  | timePasses millis => exact h.aside rfl rfl

/-- Whether a master, however the graph spells it, is compiled on request only. -/
def OnRequestOnly (e : Engine σ) (m : Path) : Prop :=
  ∀ f ∈ e.graph.files, f.path.parts = m.parts → e.options.manualOnly f.path = true

instance (e : Engine σ) (m : Path) : Decidable (e.OnRequestOnly m) :=
  inferInstanceAs (Decidable (∀ f ∈ e.graph.files, f.path.parts = m.parts →
    e.options.manualOnly f.path = true))

instance decideThroughout {ok : Engine σ → Act σ → Prop} [∀ e a, Decidable (ok e a)] :
    (acts : List (Act σ)) → (e : Engine σ) → Decidable (Throughout ok acts e)
  | [], _ => inferInstanceAs (Decidable True)
  | a :: rest, e =>
    have : Decidable (Throughout ok rest (e.act a)) := decideThroughout rest (e.act a)
    inferInstanceAs (Decidable (ok e a ∧ Throughout ok rest (e.act a)))

theorem prompted_mem_look {a : Act σ} (hp : p ∈ e.prompted a) :
    e.options.manualOnly p = false ∧ ∃ f ∈ (e.look a).graph.files, f.path = p := by
  cases a with
  | sourceChanged changed =>
    obtain ⟨affected, automatic⟩ := List.mem_filter.mp hp
    refine ⟨by simpa using automatic, ?_⟩
    unfold FileGraph.refresh at affected
    change ∃ f ∈ (e.graph.refresh e.site changed).2.graph.files, f.path = p
    unfold FileGraph.refresh
    split at affected
    next => cases affected
    next read s' found =>
      obtain ⟨f, hf, rfl⟩ := List.mem_map.mp affected
      exact ⟨f, (List.mem_filter.mp hf).1, rfl⟩
  | compileAll force =>
    cases force with
    | true => cases hp
    | false =>
      obtain ⟨stale, automatic⟩ := List.mem_filter.mp hp
      obtain ⟨f, hf, path⟩ := e.graph.staleAmong_mem stale
      exact ⟨by simpa using automatic, f, (List.mem_filter.mp hf).1, path⟩
  | _ => cases hp

/-- No call prompts the compile of a master that is compiled on request only. -/
theorem prompted_automatic {a : Act σ} (manual : (e.act a).OnRequestOnly m)
    (hp : p ∈ e.prompted a) : p.parts ≠ m.parts := by
  obtain ⟨automatic, f, hf, rfl⟩ := prompted_mem_look hp
  have links := Desk.course_links (act_course Rules.free_lenient (e.allows_free a))
  obtain ⟨k, hk, same⟩ := FileGraph.mem_of_view links.symm hf
  have path : k.path = f.path := (congrArg SourceFile.path same :)
  intro alike
  have listed := manual k hk (path ▸ alike)
  rw [path, act_options, automatic] at listed
  cases listed

theorem run_keepsTo {acts : List (Act σ)} (h : e.KeepsTo fun p => p.parts ≠ m.parts)
    (manual : ∀ front, front <+: acts → (e.run front).OnRequestOnly m)
    (unasked : Throughout (fun e a => ∀ p ∈ e.requested a, p.parts ≠ m.parts) acts e) :
    (e.run acts).KeepsTo fun p => p.parts ≠ m.parts := by
  induction acts generalizing e with
  | nil => exact h
  | cons a rest ih =>
    have first : (e.act a).OnRequestOnly m := manual [a] (by simp)
    have one : (e.act a).KeepsTo fun p => p.parts ≠ m.parts :=
      act_keepsTo h unasked.1 fun _ hp => prompted_automatic first hp
    exact ih one
      (fun front within => manual (a :: front) ((List.prefix_cons_inj a).mpr within)) unasked.2

/-- In every run of a new engine, a master that is compiled on request only and that no request is
for has no job at any time, does not wait, and the compiler is not entered for it. -/
theorem unasked_manual_master_left_alone (graph : FileGraph) (options : EngineOptions) (site : σ)
    (dawn : Nat) (acts : List (Act σ)) (m : Path)
    (manual : ∀ front, front <+: acts →
      ((fresh graph options site dawn).run front).OnRequestOnly m)
    (unasked : Throughout (fun e a => ∀ p ∈ e.requested a, p.parts ≠ m.parts) acts
      (fresh graph options site dawn)) :
    let e := (fresh graph options site dawn).run acts
    (∀ j, j ∈ e.jobs ∨ j ∈ e.abandoned → j.path.parts ≠ m.parts) ∧
      (∀ p ∈ e.pending.order, p.parts ≠ m.parts) ∧ e.pending.contains m = false ∧
      ∀ id p, .queued id p ∈ e.trace ∨ .called id p ∈ e.trace → p.parts ≠ m.parts := by
  intro e
  have new : (fresh graph options site dawn).KeepsTo fun p => p.parts ≠ m.parts :=
    ⟨⟨nofun, nofun, nofun⟩, .none_⟩
  have keeps : e.KeepsTo fun p => p.parts ≠ m.parts := run_keepsTo new manual unasked
  refine ⟨fun j hj => hj.elim (keeps.core.jobs j) (keeps.core.abandoned j),
    fun p hp => keeps.waits p (.inl hp), ?_, ?_⟩
  · refine Bool.eq_false_iff.mpr fun waits => ?_
    obtain ⟨p, hp, same⟩ := Pending.contains_iff.mp waits
    exact keeps.waits p (.inr hp) same
  · rintro id p (told | told)
    · exact keeps.core.story _ (List.mem_filter.mpr ⟨told, rfl⟩)
    · exact keeps.core.story _ (List.mem_filter.mpr ⟨told, rfl⟩)

/-- Two masters that include one file. -/
def jointStories : FileGraph :=
  FileGraph.relink
    { root := .ofText ""
      options := { extension := "ink" }
      files := [{ path := .ofText "a.ink", rawIncludes := ["shared.ink"] },
        { path := .ofText "b.ink", rawIncludes := ["shared.ink"] },
        { path := .ofText "shared.ink" }] }

/-- Their files. -/
def jointStoriesSite : Sandbox where
  disk := ((MemoryDisk.empty.addFile (.ofText "a.ink") "INCLUDE shared.ink".toUTF8).addFile
    (.ofText "b.ink") "INCLUDE shared.ink".toUTF8).addFile (.ofText "shared.ink") .empty

/-- The file that both include changes before and while the stories are in use. -/
def jointRun : List (Act Sandbox) :=
  [.sourceChanged (.ofText "shared.ink"), .compileAll false, .poll 0, .setMode .restricted 0,
    .sourceChanged (.ofText "shared.ink"), .compileAll false, .exitRestricted 0, .cancelAll,
    .compileAll false, .compileFile (.ofText "a.ink") false, .poll 0]

/-- One of them is compiled on request only. -/
def oneByHand : EngineOptions where
  manualOnly p := p == .ofText "b.ink"

/-- How often the compiler was entered for a master. -/
def callsFor (e : Engine σ) (m : Path) : Nat :=
  e.trace.countP fun
    | .called _ p => p == m
    | _ => false

/-- It stays stale all along, while the other is compiled for a change, for a change that waited,
and on request. -/
theorem joint_story_left_alone :
    let e := (fresh jointStories oneByHand jointStoriesSite 0).run jointRun
    e.graph.isMaster (.ofText "b.ink") = true ∧
      (e.graph.staleMasters e.site).1.map Path.text = ["b.ink"] ∧
      e.callsFor (.ofText "a.ink") = 3 ∧
      ∀ id p, .queued id p ∈ e.trace ∨ .called id p ∈ e.trace →
        p.parts ≠ (Path.ofText "b.ink").parts := by
  have manual : ∀ front ∈ jointRun.inits, OnRequestOnly
      ((fresh jointStories oneByHand jointStoriesSite 0).run front) (.ofText "b.ink") := by
    decide +kernel
  have unasked : Throughout
      (fun e a => ∀ p ∈ e.requested a, p.parts ≠ (Path.ofText "b.ink").parts) jointRun
      (fresh jointStories oneByHand jointStoriesSite 0) := by
    decide +kernel
  have alone := unasked_manual_master_left_alone jointStories oneByHand jointStoriesSite 0 jointRun
    (.ofText "b.ink") (fun front within => manual front ((List.mem_inits _ _).mpr within)) unasked
  refine ⟨?_, ?_, ?_, alone.2.2.2⟩
  · decide +kernel
  · decide +kernel
  · decide +kernel

end StoryBuild.Engine
