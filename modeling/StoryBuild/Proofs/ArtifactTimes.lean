import StoryBuild.Sandbox
import StoryBuild.Proofs.ArtifactPlaces
import StoryBuild.Proofs.Batches
import StoryBuild.Proofs.DiskEdits
import StoryBuild.Proofs.Staleness

namespace StoryBuild

/-- The modification time of a file. -/
def Entry.time? : Entry → Option Nat
  | .file _ time => some time
  | .dir _ => none

namespace MemoryDisk

/-- The time of the file at some parts. -/
def timeAt (d : MemoryDisk) (parts : List Part) : Option Nat :=
  (standsAt d.entries parts).bind Entry.time?

/-- All times can be read, and none is ahead of the clock. -/
structure Timely (d : MemoryDisk) : Prop where
  faultless : d.metadataFaults = []
  past : ∀ parts t, d.timeAt parts = some t → t ≤ d.clock

variable {d : MemoryDisk}

theorem timeAt_addFile (p : Path) (content : ByteArray) (parts : List Part) :
    (d.addFile p content).timeAt parts =
      if p.parts = parts then some (d.clock + 1) else d.timeAt parts :=
  view_addFile (fun _ => rfl) d p content parts

theorem timeAt_touch (p : Path) (parts : List Part) :
    (d.touch p).timeAt parts =
      if p.parts = parts then (d.timeAt parts).map fun _ => d.clock + 1 else d.timeAt parts := by
  unfold touch timeAt
  dsimp only
  rw [lookup_eq]
  by_cases here_ : p.parts = parts
  · subst here_
    rw [if_pos rfl]
    cases found : standsAt d.entries p.parts with
    | none => simp [found]
    | some e =>
      cases e with
      | file content time => simp [standsAt_putAt, Entry.time?]
      | dir names => simp [found, Entry.time?]
  · rw [if_neg here_]
    split
    next => rw [standsAt_putAt, if_neg here_]
    next => rfl

theorem timeAt_remove (p : Path) (parts : List Part) :
    (d.remove p).timeAt parts = if p.parts = parts then none else d.timeAt parts :=
  view_remove (fun _ => rfl) d p parts

theorem timeAt_edit {root : Path} {e : Edit} {parts : List Part}
    (apart : (root.join e.path).parts ≠ parts) :
    (d.edit root e).timeAt parts = d.timeAt parts :=
  view_edit (fun _ => rfl) apart

/-- No file has a time to come. -/
def InPast (d : MemoryDisk) : Prop :=
  ∀ parts t, d.timeAt parts = some t → t ≤ d.clock

theorem InPast.addFile (h : d.InPast) (p : Path) (content : ByteArray) :
    (d.addFile p content).InPast := by
  intro parts t there
  rw [timeAt_addFile] at there
  change t ≤ d.clock + 1
  split at there
  next => exact Nat.le_of_eq (Option.some.inj there).symm
  next => exact Nat.le_succ_of_le (h parts t there)

theorem InPast.remove (h : d.InPast) (p : Path) : (d.remove p).InPast := by
  intro parts t there
  rw [timeAt_remove] at there
  rw [remove_eq]
  split at there
  next => cases there
  next => exact h parts t there

/-- The clock goes on whatever is touched. -/
theorem clock_touch (p : Path) : (d.touch p).clock = d.clock + 1 := by
  unfold MemoryDisk.touch
  split <;> rfl

theorem InPast.touch (h : d.InPast) (p : Path) : (d.touch p).InPast := by
  intro parts t there
  rw [timeAt_touch] at there
  rw [clock_touch]
  split at there
  next =>
    obtain ⟨-, -, rfl⟩ := Option.map_eq_some_iff.mp there
    exact Nat.le_refl _
  next => exact Nat.le_succ_of_le (h parts t there)

theorem empty_inPast : empty.InPast := by
  intro parts t there
  have none_ : empty.timeAt parts = none := by
    rw [timeAt, standsAt_empty]
    split <;> rfl
  rw [none_] at there
  cases there

theorem Timely.inPast (h : d.Timely) : d.InPast :=
  h.past

theorem Timely.addFile (h : d.Timely) (p : Path) (content : ByteArray) :
    (d.addFile p content).Timely :=
  ⟨h.faultless, h.inPast.addFile p content⟩

theorem Timely.remove (h : d.Timely) (p : Path) : (d.remove p).Timely := by
  refine ⟨?_, h.inPast.remove p⟩
  rw [remove_eq]
  exact h.faultless

theorem Timely.edit (h : d.Timely) (root : Path) (e : Edit) : (d.edit root e).Timely := by
  cases e with
  | write p content => exact h.addFile _ content
  | delete p => exact h.remove _

theorem Timely.edits (h : d.Timely) (root : Path) (es : List Edit) : (d.edits root es).Timely := by
  induction es generalizing d with
  | nil => exact h
  | cons e rest ih => exact ih (h.edit root e)

theorem clock_edit (root : Path) (e : Edit) : d.clock ≤ (d.edit root e).clock := by
  cases e with
  | write p content => exact Nat.le_succ _
  | delete p =>
    have kept : (d.edit root (.delete p)).clock = d.clock := by rw [MemoryDisk.edit, remove_eq]
    exact Nat.le_of_eq kept.symm

theorem empty_timely : empty.Timely :=
  ⟨rfl, empty_inPast⟩

/-- Where no failure is to come, the time of a file is read, and reading changes nothing. -/
theorem modified_unspent {p : Path} (none_ : spendFault p d.metadataFaults = none) :
    (d.modified p).2 = d ∧ (d.modified p).1.toOption = d.timeAt p.parts := by
  rw [modified, none_, timeAt, lookup_eq]
  dsimp only
  cases standsAt d.entries p.parts with
  | none => exact ⟨rfl, rfl⟩
  | some e => cases e <;> exact ⟨rfl, rfl⟩

theorem time_disk (h : d.Timely) (p : Path) : (d.modified p).1.toOption = d.timeAt p.parts :=
  (modified_unspent (unspent h.faultless p)).2

end MemoryDisk

namespace Sandbox

variable {s s' : Sandbox} {p : Path} {content : ByteArray}

theorem time_sandbox (h : s.disk.Timely) (p : Path) :
    Storage.time? s p = s.disk.timeAt p.parts :=
  s.disk.time_disk h p

theorem steady (h : s.disk.Timely) : Storage.Steady s := by
  intro p
  have same : (s.disk.modified p).2 = s.disk := MemoryDisk.modified_disk h.faultless p
  change { s with disk := (s.disk.modified p).2 } = s
  rw [same]

/-- An accepted write is the write of a file. -/
theorem write_ok (h : Storage.write s p content = (.ok (), s')) :
    s' = s.mapDisk (·.addFile p content) := by
  change ((s.disk.write p content).1, { s with disk := (s.disk.write p content).2 }) = _ at h
  unfold MemoryDisk.write at h
  split at h
  next => cases h
  next => exact (Prod.mk.inj h).2.symm

/-- A refused write changes no file. -/
theorem write_refused {cause : IoError} (h : Storage.write s p content = (.error cause, s')) :
    ∃ writeFaults, s' = s.mapDisk fun d => { d with writeFaults } := by
  change ((s.disk.write p content).1, { s with disk := (s.disk.write p content).2 }) = _ at h
  unfold MemoryDisk.write at h
  split at h
  next writeFaults _ => exact ⟨writeFaults, (Prod.mk.inj h).2.symm⟩
  next => cases h

end Sandbox

namespace FileGraph

variable {g new : FileGraph} {s s' : Sandbox} {p : Path} {content : ByteArray}

/-- No file, and no time on record, is ahead of the clock. -/
structure Timed (g : FileGraph) (s : Sandbox) : Prop where
  timely : s.disk.Timely
  recorded : ∀ f ∈ g.files, ∀ t, f.modified = some t → t ≤ s.disk.clock

theorem Timed.of_dated (h : g.Timed s)
    (same : new.mapFiles SourceFile.dated = g.mapFiles SourceFile.dated) : new.Timed s := by
  refine ⟨h.timely, fun f hf t there => ?_⟩
  obtain ⟨k, hk, alike⟩ := mem_of_view same hf
  exact h.recorded k hk t ((congrArg SourceFile.modified alike :).trans there)

theorem Timed.later (h : g.Timed s) (timely : s'.disk.Timely)
    (clock : s.disk.clock ≤ s'.disk.clock) : g.Timed s' :=
  ⟨timely, fun f hf t there => Nat.le_trans (h.recorded f hf t there) clock⟩

theorem Timed.write {r : Except IoError Unit} (h : g.Timed s)
    (written : Storage.write s p content = (r, s')) : g.Timed s' := by
  cases r with
  | ok u =>
    rw [Sandbox.write_ok written]
    exact h.later (h.timely.addFile p content) (Nat.le_succ _)
  | error cause =>
    obtain ⟨writeFaults, rfl⟩ := Sandbox.write_refused written
    exact h.later ⟨h.timely.faultless, h.timely.past⟩ (Nat.le_refl _)

theorem Timed.source (h : g.Timed s) {t : Nat} (there : g.sourceTime s p = some t) :
    t ≤ s.disk.clock := by
  rw [sourceTime, Sandbox.time_sandbox h.timely] at there
  cases found : s.disk.timeAt (g.absolute p).parts with
  | some time =>
    rw [found] at there
    cases there
    exact h.timely.past _ _ found
  | none =>
    rw [found] at there
    obtain ⟨f, recorded, time⟩ := Option.bind_eq_some_iff.mp there
    exact h.recorded f (file_found recorded).1 t time

/-- A refresh reads times from the disk, where none is ahead of the clock. -/
theorem Timed.refresh (h : g.Timed s) (p : Path) : (g.refresh s p).2.graph.Timed s := by
  refine ⟨h.timely, refresh_dated (P := fun _ time => ∀ t, time = some t → t ≤ s.disk.clock)
    h.recorded nofun fun _ time old t there => ?_⟩
  rw [Sandbox.time_sandbox h.timely] at there
  cases found : s.disk.timeAt (g.absolute p).parts with
  | some read =>
    rw [found] at there
    cases there
    exact h.timely.past _ _ found
  | none =>
    rw [found] at there
    exact old t there

/-- No master is outdated while the times of sources stay and others go up. -/
theorem spares_of_times (timely : s.disk.Timely) (timely' : s'.disk.Timely)
    (sources : ∀ q, g.isTracked q = true →
      s'.disk.timeAt (g.absolute q).parts = s.disk.timeAt (g.absolute q).parts)
    (later : ∀ parts t, s.disk.timeAt parts = some t →
      ∃ t', s'.disk.timeAt parts = some t' ∧ t ≤ t') : g.Spares s g s' := by
  refine ⟨rfl, rfl, fun _ => id, ?_, ?_⟩
  · intro q tracked
    rw [Sandbox.time_sandbox timely, Sandbox.time_sandbox timely']
    exact sources q tracked
  · intro q t there
    rw [Sandbox.time_sandbox timely] at there
    rw [Sandbox.time_sandbox timely']
    exact later _ _ there

/-- A write away from the sources, accepted or not, outdates no master. -/
theorem write_spares {r : Except IoError Unit} (timely : s.disk.Timely)
    (away : ∀ q, g.isTracked q = true → (g.absolute q).parts ≠ p.parts)
    (written : Storage.write s p content = (r, s')) : g.Spares s g s' := by
  cases r with
  | ok u =>
    have seen := MemoryDisk.timeAt_addFile (d := s.disk) p content
    rw [Sandbox.write_ok written]
    refine spares_of_times timely (timely.addFile p content) ?_ ?_
    · exact fun q tracked => (seen _).trans (if_neg (Ne.symm (away q tracked)))
    · intro parts t there
      by_cases here_ : p.parts = parts
      · refine ⟨_, (seen parts).trans (if_pos here_), ?_⟩
        exact Nat.le_succ_of_le (timely.past _ _ there)
      · exact ⟨t, (seen parts).trans ((if_neg here_).trans there), Nat.le_refl t⟩
  | error cause =>
    obtain ⟨writeFaults, rfl⟩ := Sandbox.write_refused written
    exact spares_of_times timely ⟨timely.faultless, timely.past⟩ (fun _ _ => rfl)
      fun _ t there => ⟨t, there, Nat.le_refl t⟩

theorem Handled.mapFiles {change : SourceFile → SourceFile} (h : g.Handled p)
    (path : ∀ f, (change f).path = f.path)
    (kept : ∀ f, f.unhandled = [] → (change f).unhandled = []) : (g.mapFiles change).Handled p := by
  intro k after
  rw [file_mapFiles g path] at after
  obtain ⟨f, before, rfl⟩ := Option.map_eq_some_iff.mp after
  exact kept f (h f before)

theorem Handled.update {q : Path} {change : SourceFile → SourceFile} (h : g.Handled p)
    (path : ∀ f, (change f).path = f.path)
    (kept : ∀ f, f.unhandled = [] → (change f).unhandled = []) :
    (g.update q change).Handled p := by
  refine h.mapFiles (fun f => ?_) fun f none_ => ?_
  · split
    next => exact path f
    next => rfl
  · split
    next => exact kept f none_
    next => exact none_

theorem addDiagnostic_rest (f : SourceFile) (d : Diagnostic) :
    (f.addDiagnostic d).path = f.path ∧ (f.addDiagnostic d).unhandled = f.unhandled ∧
      (f.addDiagnostic d).modified = f.modified := by
  unfold SourceFile.addDiagnostic
  split <;> exact ⟨rfl, rfl, rfl⟩

section Outcome

variable {master : Path} {diagnostics : List Diagnostic} {artifact : Option Path} {time : Nat}

/-- A compile that did not fail outright leaves no master as failed, and its own as handled. -/
theorem applyOutcome_handled (h : g.Handled p ∨ p.parts = master.parts) :
    (g.applyOutcome master diagnostics [] artifact time).Handled p := by
  have cleared (h : g.Handled p) : (g.clearFamily master (g.family master)).Handled p := by
    refine h.mapFiles (fun f => ?_) fun f none_ => ?_
    · split <;> rfl
    · split
      next => rfl
      next => exact none_
  have fill (ds : List Diagnostic) : ∀ {g' : FileGraph}, g'.Handled p →
      (ds.foldl (fun h d => h.update (g.ownerOf master (g.family master) d) (·.addDiagnostic d))
        g').Handled p := by
    induction ds with
    | nil => exact id
    | cons d rest ih =>
      refine fun h => ih (h.update (fun f => (addDiagnostic_rest f d).1) fun f none_ => ?_)
      exact (addDiagnostic_rest f d).2.1.trans none_
  unfold applyOutcome
  dsimp only
  rcases h with h | here_
  · exact (fill diagnostics (cleared h)).update (fun _ => rfl) fun _ _ => rfl
  · generalize diagnostics.foldl _ _ = filled
    intro k after
    rw [update, file_mapFiles filled (fun f => by split <;> rfl)] at after
    obtain ⟨f, before, rfl⟩ := Option.map_eq_some_iff.mp after
    have mine : (f.path == master) = true :=
      Path.beq_iff.mpr ((file_found before).2.trans here_)
    rw [if_pos mine]

theorem dated_applyOutcome (unhandled : List String) :
    (g.applyOutcome master diagnostics unhandled artifact time).mapFiles SourceFile.dated =
      g.mapFiles SourceFile.dated := by
  refine view_applyOutcome (fun _ => rfl) (fun f d => ?_) (fun _ _ _ _ => rfl) g master
    diagnostics unhandled artifact time
  rw [SourceFile.dated, (addDiagnostic_rest f d).1, (addDiagnostic_rest f d).2.2]
  rfl

theorem applyOutcome_spares :
    g.Spares s (g.applyOutcome master diagnostics [] artifact time) s :=
  ⟨linkage_applyOutcome g master diagnostics [] artifact time, dated_applyOutcome [],
    fun _ h => applyOutcome_handled (.inl h), fun _ _ => rfl,
    fun _ t there => ⟨t, there, Nat.le_refl t⟩⟩

end Outcome

/-- A written artifact is newer than every file of the family. -/
theorem addFile_current {m : Path} (timed : g.Timed s)
    (away : ∀ q, g.isTracked q = true → (g.absolute q).parts ≠ p.parts)
    (aimed : p.parts = (g.absolute (g.artifactPath m)).parts) (handled : g.Handled m) :
    g.Current (s.mapDisk (·.addFile p content)) m := by
  have seen := MemoryDisk.timeAt_addFile (d := s.disk) p content
  have timely := timed.timely.addFile p content
  intro f found
  have artifact : (g.absolute (g.artifactPath f.path)).parts = p.parts :=
    (g.artifact_congr (file_found found).2).trans aimed.symm
  refine ⟨handled f found, s.disk.clock + 1, ?_, fun q hq t there => ?_⟩
  · rw [Sandbox.time_sandbox timely]
    exact (seen _).trans (if_pos artifact.symm)
  · -- Every file of the family has its old time, which the clock had passed.
    have old : g.sourceTime s q = some t := by
      rw [sourceTime, Sandbox.time_sandbox timely] at there
      rw [sourceTime, Sandbox.time_sandbox timed.timely, ← there]
      exact congrArg (· <|> _)
        ((seen _).trans (if_neg (Ne.symm (away q (tracked_of_family hq))))).symm
    exact Nat.le_succ_of_le (timed.source old)

end FileGraph

/-- All jobs of a batch gave an artifact, and none a failure of the compiler. -/
structure Summary.Clean (s : Summary) : Prop where
  failed : s.failed = []
  unhandled : s.unhandled = 0

instance (s : Summary) : Decidable s.Clean :=
  decidable_of_iff (s.failed.isEmpty = true ∧ s.unhandled = 0)
    ⟨fun h => ⟨List.isEmpty_iff.mp h.1, h.2⟩, fun h => ⟨List.isEmpty_iff.mpr h.failed, h.unhandled⟩⟩

/-- The artifact of a job goes to its place, and no source is there. -/
structure Job.Safe (g : FileGraph) (j : Job) : Prop where
  aimed : j.output.parts = (g.absolute (g.artifactPath j.path)).parts
  away : ∀ q, g.isTracked q = true → (g.absolute q).parts ≠ j.output.parts

theorem Job.Safe.of_linkage {g new : FileGraph} {j : Job} (h : j.Safe g)
    (links : new.mapFiles SourceFile.linkage = g.mapFiles SourceFile.linkage) : j.Safe new := by
  have place : new.place = g.place := (congrArg FileGraph.place links :)
  refine ⟨?_, fun q tracked => ?_⟩
  · rw [FileGraph.artifact_of_place place]
    exact h.aimed
  · rw [FileGraph.absolute_of_place place]
    exact h.away q ((FileGraph.isTracked_of_linkage links q).symm.trans tracked)

namespace Engine

open FileGraph

variable {e : Engine Sandbox} {j : Job} {s : Summary}

theorem writeArtifact_ok (h : (e.writeArtifact j).1.isNone = false) :
    (e.writeArtifact j).2.1 = [] ∧
      ∃ content site, Storage.write e.site j.output content = (.ok (), site) ∧
        (e.writeArtifact j).2.2.site = site := by
  unfold writeArtifact at h ⊢
  split
  next none_ => simp [none_] at h
  next content given =>
    rw [given] at h
    dsimp only at h
    split
    next site written => exact ⟨rfl, content, site, written, rfl⟩
    next cause site refused => simp [refused] at h

theorem applyJob_summary (h : (applyJob (s, e) j).1.Clean) :
    s.Clean ∧ j.unhandled = [] ∧ (e.writeArtifact j).1.isNone = false := by
  obtain ⟨failed, unhandled⟩ := h
  dsimp only [applyJob, addResult] at failed unhandled
  simp only [Nat.add_eq_zero_iff, List.length_eq_zero_iff, List.append_eq_nil_iff] at unhandled
  cases given : (e.writeArtifact j).1.isNone with
  | true => simp [given] at failed
  | false =>
    rw [given] at failed
    exact ⟨⟨failed, unhandled.1⟩, unhandled.2.1, rfl⟩

theorem applyJob_timed (s : Summary) (j : Job) (timed : e.graph.Timed e.site) :
    (applyJob (s, e) j).2.graph.Timed (applyJob (s, e) j).2.site := by
  have written : e.graph.Timed (e.writeArtifact j).2.2.site := by
    unfold writeArtifact
    split
    next => exact timed
    next =>
      split
      next site written => exact timed.write written
      next cause site refused => exact timed.write refused
  rw [(applyJob_rest s e j).1, (applyJob_rest s e j).2]
  exact written.of_dated (dated_applyOutcome _)

theorem applyJobs_timed (jobs : List Job) {s : Summary} {e : Engine Sandbox}
    (timed : e.graph.Timed e.site) :
    (jobs.foldl applyJob (s, e)).2.graph.Timed (jobs.foldl applyJob (s, e)).2.site := by
  induction jobs generalizing s e with
  | nil => exact timed
  | cons j rest ih => exact ih (applyJob_timed s j timed)

/-- The record of a batch puts nothing ahead of the clock. -/
theorem applyBatch_timed (timed : e.graph.Timed e.site) :
    e.applyBatch.2.graph.Timed e.applyBatch.2.site :=
  applyJobs_timed (e := { e with jobs := [], abandoned := [] }) e.batchJobs timed

/-- The record of a clean job outdates no master, and brings its own up to date. -/
theorem applyJob_spares (timed : e.graph.Timed e.site) (safe : j.Safe e.graph)
    (h : (applyJob (s, e) j).1.Clean) :
    e.graph.Spares e.site (applyJob (s, e) j).2.graph (applyJob (s, e) j).2.site ∧
      (applyJob (s, e) j).2.graph.Current (applyJob (s, e) j).2.site j.path := by
  obtain ⟨-, no_failure, given⟩ := applyJob_summary h
  obtain ⟨accepted, content, site, written, moved⟩ := writeArtifact_ok given
  rw [(applyJob_rest s e j).1, (applyJob_rest s e j).2, moved, accepted, no_failure,
    List.append_nil]
  generalize Diagnostic.ofLines j.lines = diagnostics
  generalize (e.writeArtifact j).1 = artifact
  generalize (e.writeArtifact j).2.2.wall = time
  have filed : e.graph.Spares e.site
      (e.graph.applyOutcome j.path diagnostics [] artifact time) e.site := applyOutcome_spares
  have timed' := timed.of_dated filed.recorded
  have safe' := safe.of_linkage filed.links
  refine ⟨filed.trans (write_spares timed.timely safe'.away written), ?_⟩
  rw [Sandbox.write_ok written]
  exact addFile_current timed' safe'.away safe'.aimed (applyOutcome_handled (.inr rfl))

theorem applyJobs_summary (jobs : List Job) {s : Summary} {e : Engine Sandbox}
    (h : (jobs.foldl applyJob (s, e)).1.Clean) : s.Clean := by
  induction jobs generalizing s e with
  | nil => exact h
  | cons j rest ih => exact (applyJob_summary (ih h)).1

theorem applyJobs_spares (jobs : List Job) {s : Summary} {e : Engine Sandbox}
    (timed : e.graph.Timed e.site) (safe : ∀ j ∈ jobs, j.Safe e.graph)
    (h : (jobs.foldl applyJob (s, e)).1.Clean) :
    let e' := (jobs.foldl applyJob (s, e)).2
    e.graph.Spares e.site e'.graph e'.site ∧ ∀ j ∈ jobs, e'.graph.Current e'.site j.path := by
  induction jobs generalizing s e with
  | nil => exact ⟨.refl e.graph e.site, nofun⟩
  | cons j rest ih =>
    obtain ⟨first, current⟩ :=
      applyJob_spares timed (safe j List.mem_cons_self) (applyJobs_summary rest h)
    obtain ⟨others, current'⟩ := ih (applyJob_timed s j timed)
      (fun k hk => (safe k (List.mem_cons_of_mem _ hk)).of_linkage first.links) h
    refine ⟨first.trans others, fun k hk => ?_⟩
    rcases List.mem_cons.mp hk with rfl | hk
    · exact others.current current
    · exact current' k hk

/-- The record of a clean batch outdates no master, and brings those of its jobs up to date. -/
theorem applyBatch_spares (timed : e.graph.Timed e.site) (safe : ∀ j ∈ e.batchJobs, j.Safe e.graph)
    (h : e.applyBatch.1.Clean) :
    e.graph.Spares e.site e.applyBatch.2.graph e.applyBatch.2.site ∧
      ∀ j ∈ e.batchJobs, e.applyBatch.2.graph.Current e.applyBatch.2.site j.path :=
  applyJobs_spares (e := { e with jobs := [], abandoned := [] }) e.batchJobs timed safe
    ⟨h.failed, h.unhandled⟩

end Engine

end StoryBuild
