import StoryBuild.Proofs.Acting
import StoryBuild.Proofs.DeskFacts
import StoryBuild.Proofs.FileOrder

namespace StoryBuild

variable {σ : Type}

namespace FileGraph

variable [Storage σ] {P : σ → Prop} (timed : ∀ s q, P s → P (Storage.modified s q).2)

include timed

theorem importAll_keeps (paths : List Path) {g : FileGraph} {s : σ} (h : P s) (found : Found) :
    P (paths.foldl importFile (g, s, found)).2.1 :=
  importAll_preserves (M := fun _ s => P s) (fun h _ read => modifiedTwice_keeps timed h read)
    (fun h _ _ read => modifiedTwice_keeps timed h read) h found

theorem reparseAll_keeps (paths : List Path) {g : FileGraph} {s : σ} (h : P s) :
    P (g.reparseAll s paths).2 :=
  reparseAll_preserves (M := fun _ s => P s) (fun {g s} p h => timed s (g.absolute p) h) h paths

theorem rebuild_keeps {s : σ} (g : FileGraph) (h : P s) : P (g.rebuild s).2.storage := by
  unfold rebuild discover
  dsimp only
  cases (g.prune s).scan s with
  | error cause => exact h
  | ok paths =>
    have imported : P (paths.foldl importFile (g.prune s, s, {})).2.1 :=
      importAll_keeps timed paths h {}
    exact reparseAll_keeps timed _ imported

theorem build_keeps {root : Path} {options : GraphOptions} {s : σ} {reading : Reading σ}
    (built : build root options s = .ok reading) (h : P s) : P reading.storage := by
  have kept := rebuild_keeps timed (empty root options) h
  rwa [rebuild_of_build built] at kept

theorem reread_keeps {g after : FileGraph} {s s' : σ} {p : Path} (h : P s)
    (read : g.reread s p = some (after, s')) : P s' := by
  have parsed (g : FileGraph) : P (g.reparse s p).2 := timed s (g.absolute p) h
  have same {found : FileGraph × σ} (kept : P found.2) (there : some found = some (after, s')) :
      P s' := by
    cases there
    exact kept
  unfold reread at read
  split at read
  next =>
    split at read
    next => exact same (parsed g) read
    next =>
      split at read
      next => exact same (parsed _) read
      next => cases read
  next =>
    split at read
    next => exact same h read
    next => cases read

theorem refresh_keeps {s : σ} (g : FileGraph) (p : Path) (h : P s) :
    P (g.refresh s p).2.storage := by
  unfold refresh
  split
  next => exact h
  next read => exact reread_keeps timed h read

theorem anyNewer_keeps (g : FileGraph) (time : Nat) (paths : List Path) {s : σ} (h : P s) :
    P (g.anyNewer time s paths).2 := by
  induction paths generalizing s with
  | nil => exact h
  | cons p rest ih =>
    have read := timed s (g.absolute p) h
    unfold anyNewer
    dsimp only
    split
    next => exact read
    next => exact ih read

theorem isStale_keeps (g : FileGraph) (master : SourceFile) {s : σ} (h : P s) :
    P (g.isStale s master).2 := by
  have read := timed s (g.absolute (g.artifactPath master.path)) h
  unfold isStale
  split
  next => exact h
  next =>
    split
    next same => rwa [same] at read
    next same =>
      rw [same] at read
      exact anyNewer_keeps timed g _ _ read

theorem staleAmong_keeps (g : FileGraph) (masters : List SourceFile) {s : σ} (h : P s) :
    P (g.staleAmong s masters).2 := by
  induction masters generalizing s with
  | nil => exact h
  | cons f rest ih => exact ih (isStale_keeps timed g f h)

end FileGraph

namespace Engine

variable [Workshop σ] {P : σ → Prop}

/-- What a reading of a modification time keeps of a storage, a look at the disk keeps. -/
theorem look_keeps (timed : ∀ s q, P s → P (Storage.modified s q).2) {e : Engine σ} {a : Act σ}
    (outside : ∀ site, a = .siteChanged site → P site) (h : P e.site) : P (e.look a).site := by
  have rebuilt : P e.rebuildGraph.2.site := by
    unfold rebuildGraph
    split
    next => exact h
    next =>
      have kept := FileGraph.rebuild_keeps timed e.graph h
      dsimp only
      split <;> exact kept
  cases a with
  | sourceChanged p => exact FileGraph.refresh_keeps timed e.graph p h
  | compileAll force =>
    unfold look targets
    dsimp only
    split
    next => exact h
    next => exact FileGraph.staleAmong_keeps timed e.graph _ h
  | rebuildGraph => exact rebuilt
  | rebuildIfRequired =>
    unfold look rebuildIfRequired
    dsimp only
    split
    next => split <;> simp_all
    next => exact h
  | siteChanged site => exact outside site rfl
  | _ => exact h

end Engine

/-- Whether an event tells that something was written. -/
def Event.isWrite : Event → Bool
  | .wrote _ _ => true
  | _ => false

/-- A relation between a storage and a trace that goes on whatever an engine does. -/
structure Carried {σ : Type} [Workshop σ] (K : σ → List Event → Prop) : Prop where
  wrote : ∀ {s s' : σ} {trace : List Event} {p : Path} {content : ByteArray}, K s trace →
    Storage.write s p content = (.ok (), s') → K s' (.wrote p content :: trace)
  refused : ∀ {s s' : σ} {trace : List Event} {p : Path} {content : ByteArray} {cause : IoError},
    K s trace → Storage.write s p content = (.error cause, s') → K s' trace
  timed : ∀ {s : σ} {trace : List Event} (p : Path), K s trace → K (Storage.modified s p).2 trace
  compiled : ∀ {s s' : σ} {trace : List Event}, K s trace → Wanders s s' → K s' trace
  told : ∀ {s : σ} {trace : List Event} {event : Event}, K s trace → event.isWrite = false →
    K s (event :: trace)

namespace Carried

variable {σ : Type} [Workshop σ] {K : σ → List Event → Prop} (carried : Carried K)

include carried

theorem append {s : σ} {trace events : List Event} (h : K s trace)
    (silent : ∀ event ∈ events, event.isWrite = false) : K s (events ++ trace) := by
  induction events with
  | nil => exact h
  | cons event rest ih =>
    exact carried.told (ih fun x hx => silent x (List.mem_cons_of_mem _ hx))
      (silent event List.mem_cons_self)

section Record

variable {e : Engine σ}

theorem writeArtifact (j : Job) (h : K e.site e.trace) :
    K (e.writeArtifact j).2.2.site (e.writeArtifact j).2.2.trace := by
  unfold Engine.writeArtifact
  split
  next => exact h
  next content _ =>
    split
    next site written => exact carried.told (carried.wrote h written) rfl
    next cause site refused => exact carried.told (carried.refused h refused) rfl

theorem logAll (lines : List LogLine) (h : K e.site e.trace) :
    K (e.logAll lines).site (e.logAll lines).trace := by
  refine carried.append h fun event hevent => ?_
  obtain ⟨line, -, rfl⟩ := List.mem_map.mp (List.mem_reverse.mp hevent)
  rfl

theorem applyJob (s : Summary) (j : Job) (h : K e.site e.trace) :
    K (Engine.applyJob (s, e) j).2.site (Engine.applyJob (s, e) j).2.trace := by
  have written := carried.logAll (Engine.readingLog j.lines) (carried.writeArtifact j h)
  have spoken : ∀ d : Engine σ, K d.site d.trace →
      K (if d.options.logDiagnostics then
          d.logAll ((Diagnostic.ofLines j.lines).map Engine.diagnosticLog) else d).site
        (if d.options.logDiagnostics then
          d.logAll ((Diagnostic.ofLines j.lines).map Engine.diagnosticLog) else d).trace := by
    intro d hd
    split
    next => exact carried.logAll _ hd
    next => exact hd
  exact carried.told (spoken _ written) rfl

theorem applyBatch (h : K e.site e.trace) : K e.applyBatch.2.site e.applyBatch.2.trace := by
  have all (jobs : List Job) : ∀ (s : Summary) (e : Engine σ), K e.site e.trace →
      K (jobs.foldl Engine.applyJob (s, e)).2.site (jobs.foldl Engine.applyJob (s, e)).2.trace := by
    induction jobs with
    | nil => exact fun _ _ h => h
    | cons j rest ih => exact fun s e h => ih _ _ (carried.applyJob s j h)
  have applied := all e.batchJobs {} { e with jobs := [], abandoned := [] } h
  exact carried.told applied rfl

end Record

/-- A step of a desk tells all that it writes. -/
theorem step {R : Rules} {c d : Desk σ} (step : Desk.Step R c d) (h : K c.site c.trace) :
    K d.site d.trace := by
  cases step with
  | tell event quiet =>
    refine carried.told h ?_
    cases event <;> first | rfl | cases quiet
  | wander how => exact carried.compiled h how
  | save q kept may written => exact carried.wrote h written
  | refuse q kept refused => exact carried.told (carried.refused h refused) rfl
  | start j now wall launch =>
    refine carried.append h ?_
    cases launch <;> simp [Launch.events, Event.isWrite]
  | drain => exact carried.applyBatch h
  | drop =>
    refine carried.append h fun event hevent => ?_
    obtain ⟨j, -, rfl⟩ := List.mem_map.mp (List.mem_reverse.mp hevent)
    rfl
  | queue | collect | fire | abandon | restrict | edit | take | turn => exact carried.told h rfl
  | _ => exact h

/-- So does a call, if the disk that is found outside goes with the trace. -/
theorem act {e : Engine σ} {a : Act σ} (outside : ∀ site, a = .siteChanged site → K site e.trace)
    (h : K e.site e.trace) : K (e.act a).site (e.act a).trace := by
  obtain ⟨graph, site, events, quiet, same⟩ := e.look_desk .steady a
  have trace : (e.look a).trace = events ++ e.trace := congrArg Desk.trace same
  have looked : K (e.look a).site e.trace :=
    Engine.look_keeps (P := fun s => K s e.trace) (fun s q hs => carried.timed q hs) outside h
  have seen : K (e.look a).site (e.look a).trace := by
    rw [trace]
    refine carried.append looked fun event hevent => ?_
    have silent := quiet event hevent
    cases event <;> first | rfl | cases silent
  exact Desk.course_preserves (P := fun d => K d.site d.trace) carried.step
    (Engine.act_course Rules.free_lenient (e.allows_free a)) seen

end Carried

end StoryBuild
