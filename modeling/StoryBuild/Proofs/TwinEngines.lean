import StoryBuild.Proofs.Acting
import StoryBuild.Proofs.TwinWorks

namespace StoryBuild

open MemoryDisk (Firm)

/-- Whether an event is more than a line in the log or a file written at a path. -/
def Event.isHeard (p : Path) : Event → Bool
  | .log _ => false
  | .wrote q _ => !(q == p)
  | _ => true

/-- Whether a job reads and writes away from a place. -/
structure Job.Apart (j : Job) (place : List Part) (d : MemoryDisk) : Prop where
  input : Firm place d j.input.parts
  output : ¬ place <+: j.output.parts

namespace Engine

variable {κ : Type} {p : Path} {a b : Engine (Trial κ)}

/-- An engine with a snapshot at a path and with other surroundings. -/
def dressed (e : Engine (Trial κ)) (p : Path) (graph : FileGraph) (site : Trial κ)
    (trace : List Event) : Engine (Trial κ) :=
  { e with graph, site, trace, options := { e.options with statePath := some p } }

/-- What an engine without a snapshot has in common with the surroundings of one with it. -/
structure Fits (p : Path) (options : EngineOptions) (g : FileGraph) (s : Trial κ)
    (trace : List Event) (jobs : List Job) (workers : List Worker) (g' : FileGraph) (t : Trial κ)
    (trace' : List Event) : Prop where
  plain : options.statePath = none
  absolute : p.parts.head? = some .root
  rooted : g.root.parts.head? = some .root
  alike : ∃ times, g.Alike times p.parts g' s t
  off : g.KeepsOff p.parts
  names : g.NamesMissing
  heard : trace'.filter (Event.isHeard p) = trace.filter (Event.isHeard p)
  jobs : ∀ j ∈ jobs, j.Apart p.parts s.disk
  workers : ∀ w ∈ workers, w.state.IsClosed

/-- Two engines that are the same but for the snapshot that the second one keeps. -/
inductive InStep (p : Path) : Engine (Trial κ) → Engine (Trial κ) → Prop where
  | mk {a : Engine (Trial κ)} {g : FileGraph} {s : Trial κ} {trace : List Event}
      (fits : Fits p a.options a.graph a.site a.trace (a.jobs ++ a.abandoned)
        (a.inFlight.toList ++ a.strays) g s trace) : InStep p a (a.dressed p g s trace)

/-- Two answers that are the same, of engines that are in step. -/
structure Agree (p : Path) {α : Type} (x y : α × Engine (Trial κ)) : Prop where
  same : y.1 = x.1
  inStep : InStep p x.2 y.2

theorem Agree.cases {α : Type} {x y : α × Engine (Trial κ)} (h : Agree p x y) :
    ∃ r a b, x = (r, a) ∧ y = (r, b) ∧ InStep p a b :=
  ⟨x.1, x.2, y.2, rfl, by rw [← h.same], h.inStep⟩

namespace Fits

variable {options : EngineOptions} {g g' : FileGraph} {s t : Trial κ} {trace trace' : List Event}
  {jobs : List Job} {workers : List Worker}
  (h : Fits p options g s trace jobs workers g' t trace')

include h

/-- The same is noted of both. -/
theorem noteAll (events : List Event) :
    Fits p options g s (events ++ trace) jobs workers g' t (events ++ trace') := by
  refine { h with heard := ?_ }
  rw [List.filter_append, List.filter_append, h.heard]

/-- Events that are not heard may differ. -/
theorem quiet (events events' : List Event) (silent : ∀ e ∈ events, e.isHeard p = false)
    (silent' : ∀ e ∈ events', e.isHeard p = false) :
    Fits p options g s (events ++ trace) jobs workers g' t (events' ++ trace') := by
  have none_ {l : List Event} (quiet : ∀ e ∈ l, e.isHeard p = false) :
      l.filter (Event.isHeard p) = [] :=
    List.filter_eq_nil_iff.mpr fun e he => by simp [quiet e he]
  refine { h with heard := ?_ }
  rw [List.filter_append, List.filter_append, none_ silent, none_ silent', h.heard]

/-- Jobs may change as long as they read and write at the same paths. -/
theorem rejob {jobs' : List Job}
    (kept : ∀ j ∈ jobs', ∃ k ∈ jobs, j.input = k.input ∧ j.output = k.output) :
    Fits p options g s trace jobs' workers g' t trace' := by
  refine { h with jobs := fun j hj => ?_ }
  obtain ⟨k, hk, input, output⟩ := kept j hj
  have apart := h.jobs k hk
  exact ⟨input ▸ apart.input, output ▸ apart.output⟩

/-- The same is recorded of a compile. -/
theorem applyOutcome (master : Path) (diagnostics : List Diagnostic) (unhandled : List String)
    (artifact : Option Path) (time : Nat) :
    Fits p options (g.applyOutcome master diagnostics unhandled artifact time) s trace jobs workers
      (g'.applyOutcome master diagnostics unhandled artifact time) t trace' := by
  obtain ⟨times, alike⟩ := h.alike
  have links := FileGraph.linkage_applyOutcome g master diagnostics unhandled artifact time
  have root : (g.applyOutcome master diagnostics unhandled artifact time).root = g.root :=
    (congrArg FileGraph.root links :)
  have recorded : g'.applyOutcome master diagnostics unhandled artifact time =
      (g.applyOutcome master diagnostics unhandled artifact time).retimed times := by
    rw [alike.graphs, FileGraph.retimed_applyOutcome]
  exact { h with
    rooted := by rw [root, h.rooted]
    alike := ⟨times, alike.regraph recorded (FileGraph.dated_applyOutcome unhandled)⟩
    off := h.off.of_linkage links
    names := h.names.of_linkage links }

theorem write {q : Path} (away : ¬ p.parts <+: q.parts) (bytes : ByteArray) :
    (Storage.write t q bytes).1 = (Storage.write s q bytes).1 ∧
      Fits p options g (Storage.write s q bytes).2 trace jobs workers g'
        (Storage.write t q bytes).2 trace' := by
  obtain ⟨times, alike⟩ := h.alike
  obtain ⟨same, alike, firm⟩ := alike.write h.absolute h.rooted away bytes
  exact ⟨same, { h with
    alike
    jobs := fun j hj => ⟨firm _ (h.jobs j hj).input, (h.jobs j hj).output⟩ }⟩

/-- A snapshot is written, or refused, on the second disk only. -/
theorem snapshot (bytes : ByteArray) :
    Fits p options g s trace jobs workers g' (Storage.write t p bytes).2 trace' := by
  obtain ⟨times, alike⟩ := h.alike
  exact { h with alike := ⟨times, alike.write_right h.absolute h.rooted rfl bytes⟩ }

end Fits

namespace InStep

variable (h : InStep p a b)

include h

theorem jobs : b.jobs = a.jobs := by
  cases h
  rfl

theorem abandoned : b.abandoned = a.abandoned := by
  cases h
  rfl

theorem inFlight : b.inFlight = a.inFlight := by
  cases h
  rfl

theorem strays : b.strays = a.strays := by
  cases h
  rfl

theorem pending : b.pending = a.pending := by
  cases h
  rfl

theorem nextId : b.nextId = a.nextId := by
  cases h
  rfl

theorem mode : b.mode = a.mode := by
  cases h
  rfl

theorem deferredEntry : b.deferredEntry = a.deferredEntry := by
  cases h
  rfl

theorem suspended : b.suspended = a.suspended := by
  cases h
  rfl

theorem clock : b.clock = a.clock := by
  cases h
  rfl

theorem isBusy : b.isBusy = a.isBusy := by
  cases h
  rfl

theorem isCompiling : b.isCompiling = a.isCompiling := by
  cases h
  rfl

theorem hasQueued : b.hasQueued = a.hasQueued := by
  cases h
  rfl

theorem hasActiveJob (m : Path) : b.hasActiveJob m = a.hasActiveJob m := by
  cases h
  rfl

theorem closed {w : Worker} (out : a.inFlight = some w) : w.state.IsClosed := by
  cases h with
  | mk fits => exact fits.workers w (by simp [out])

theorem compiler : b.site.compiler = a.site.compiler := by
  cases h with
  | mk fits =>
    obtain ⟨times, alike⟩ := fits.alike
    exact alike.sites.compiler

theorem rejob {jobs abandoned : List Job} (kept : ∀ j ∈ jobs ++ abandoned,
      ∃ k ∈ a.jobs ++ a.abandoned, j.input = k.input ∧ j.output = k.output) :
    InStep p { a with jobs, abandoned } { b with jobs, abandoned } := by
  cases h with
  | mk fits => exact .mk (fits.rejob kept)

theorem updateJob (id : Nat) (change : Job → Job)
    (kept : ∀ j, (change j).input = j.input ∧ (change j).output = j.output) :
    InStep p (a.updateJob id change) (b.updateJob id change) := by
  have jobs : b.updateJob id change =
      { b with jobs := (a.updateJob id change).jobs, abandoned := a.abandoned } := by
    rw [Engine.updateJob, Engine.updateJob, h.jobs, ← h.abandoned]
  rw [jobs]
  refine h.rejob fun j hj => ?_
  rcases List.mem_append.mp hj with active | given
  · obtain ⟨k, hk, rfl⟩ := List.mem_map.mp active
    refine ⟨k, List.mem_append_left _ hk, ?_⟩
    split
    next => exact kept k
    next => exact ⟨rfl, rfl⟩
  · exact ⟨j, List.mem_append_right _ given, rfl, rfl⟩

theorem noteAll (events : List Event) : InStep p (a.noteAll events) (b.noteAll events) := by
  cases h with
  | mk fits => exact .mk (fits.noteAll _)

theorem note (event : Event) : InStep p (a.note event) (b.note event) :=
  h.noteAll [event]

theorem logAll (lines lines' : List LogLine) : InStep p (a.logAll lines) (b.logAll lines') := by
  have silent (lines : List LogLine) :
      ∀ e ∈ (lines.map Event.log).reverse, e.isHeard p = false := by
    intro e he
    obtain ⟨line, _, rfl⟩ := List.mem_map.mp (List.mem_reverse.mp he)
    rfl
  cases h with
  | mk fits => exact .mk (fits.quiet _ _ (silent lines) (silent lines'))

/-- Only the second engine keeps a snapshot. -/
theorem persist : InStep p a.persist b.persist := by
  cases h with
  | @mk g t trace fits =>
    have none_ : a.persist = a := by rw [Engine.persist, fits.plain]
    have written := fits.snapshot (a.dressed p g t trace).snapshot.render.toUTF8
    rw [none_]
    have kept : (a.dressed p g t trace).options.statePath = some p := rfl
    unfold Engine.persist Snapshot.save
    rw [kept]
    dsimp only
    split
    next saved =>
      change Storage.write t p _ = _ at saved
      rw [saved] at written
      exact .mk (written.quiet [] [_] (by simp) (by simp [Event.isHeard, Path.beq_iff]))
    next saved =>
      change Storage.write t p _ = _ at saved
      rw [saved] at written
      exact .mk (written.quiet [] [_] (by simp) (by simp [Event.isHeard]))

end InStep

variable [Compiler κ]

omit [Compiler κ] in
/-- The compiler is asked the same. -/
theorem InStep.request (h : InStep p a b) {j : Job} (mem : j ∈ a.jobs) :
    b.request j = a.request j := by
  cases h with
  | @mk g t trace fits =>
    obtain ⟨times, alike⟩ := fits.alike
    have firm := (fits.jobs j (List.mem_append_left _ mem)).input
    have text : Storage.readText t j.input = Storage.readText a.site j.input :=
      alike.sites.disks.readText_firm firm
    have root : g.root = a.graph.root := (congrArg FileGraph.root alike.same_place :)
    have includes : g.includeMap j.path = a.graph.includeMap j.path := by
      rw [alike.graphs, FileGraph.retimed_includeMap]
    unfold Engine.request dressed
    dsimp only
    rw [text, root, includes]

end Engine

end StoryBuild
