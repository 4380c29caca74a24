import StoryBuild.Proofs.ArtifactTimes
import StoryBuild.Proofs.JsonText
import StoryBuild.Proofs.Looking
import StoryBuild.Proofs.Snapshots
import StoryBuild.Proofs.StorageLaws
import StoryBuild.Snapshot

namespace StoryBuild

/-- Bytes that spell a text are read as that text. -/
theorem decodeText_toUTF8 (text : String) : decodeText text.toUTF8 = .ok text := by
  have valid : text.toUTF8.IsValidUTF8 := text.isValidUTF8
  have read : String.fromUTF8? text.toUTF8 = some text := by
    rw [String.fromUTF8?, dif_pos valid]
    rfl
  rw [decodeText, read]

/-- Whether a start time fits. -/
def SavedJob.Fits (j : SavedJob) : Prop :=
  ∀ time ∈ j.startTime, time < startTimeBound

/-- Whether all start times of a snapshot fit. -/
def Snapshot.Fits (s : Snapshot) : Prop :=
  ∀ j ∈ s.active, j.Fits

theorem savedTime_fits {millis time : Nat} (h : savedTime millis = some time) :
    time < startTimeBound := by
  unfold savedTime at h
  split at h
  next small => exact Option.some.inj h ▸ small
  next => cases h

namespace SavedJob

theorem startTime_read {j : SavedJob} (fits : j.Fits) :
    startTimeOf? ((j.startTime.map Json.nat).getD .null) = some j.startTime := by
  cases h : j.startTime with
  | none => rfl
  | some time =>
    have small : time < startTimeBound := fits time h
    simp [Json.nat, startTimeOf?, readDecimal_toDigits, small]

theorem state_read (state : JobState) : stateOf? (.text state.name) = some state := by
  cases state <;> rfl

/-- The record of a job tells the job. -/
theorem ofJson_toJson {j : SavedJob} (fits : j.Fits) : ofJson? j.toJson = some j := by
  simp [ofJson?, toJson, field?, ofValues?, textOf?, state_read, startTime_read fits]

theorem plain_toJson (j : SavedJob) : j.toJson.Plain := by
  refine .object ?_
  simp only [List.forall_mem_cons, List.not_mem_nil, false_imp_iff, implies_true, and_true]
  refine ⟨.text _, .text _, ?_⟩
  cases j.startTime with
  | none => exact .null
  | some time => exact .nat time

end SavedJob

namespace Snapshot

theorem pending_read (paths : List String) : (paths.map Json.text).mapM textOf? = some paths := by
  induction paths with
  | nil => rfl
  | cons p rest ih => simp [textOf?, ih]

theorem active_read {jobs : List SavedJob} (fits : ∀ j ∈ jobs, j.Fits) :
    (jobs.map SavedJob.toJson).mapM SavedJob.ofJson? = some jobs := by
  induction jobs with
  | nil => rfl
  | cons j rest ih =>
    obtain ⟨first, others⟩ := List.forall_mem_cons.mp fits
    simp [SavedJob.ofJson_toJson first, ih others]

/-- The record of a snapshot tells the snapshot. -/
theorem ofJson_toJson {s : Snapshot} (fits : s.Fits) : ofJson? s.toJson = some s := by
  simp [ofJson?, toJson, field?, ofLists?, listOf?, -List.mapM_map, pending_read,
    active_read fits]

theorem plain_toJson (s : Snapshot) : s.toJson.Plain := by
  refine .object ?_
  simp only [List.forall_mem_cons, List.not_mem_nil, false_imp_iff, implies_true, and_true]
  constructor
  · refine .array fun item hitem => ?_
    obtain ⟨p, -, rfl⟩ := List.mem_map.mp hitem
    exact .text p
  · refine .array fun item hitem => ?_
    obtain ⟨j, -, rfl⟩ := List.mem_map.mp hitem
    exact j.plain_toJson

/-- The text of a snapshot spells it. -/
theorem parse_render {s : Snapshot} (fits : s.Fits) : parse s.render = some s := by
  rw [parse, render, Json.parse_render s.plain_toJson, Option.bind_some, ofJson_toJson fits]

end Snapshot

section

variable {σ : Type}

/-- The text of the file at a path, if a file stands there. -/
def Storage.fileText [Storage σ] (s : σ) (p : Path) : Option (Except IoError String) :=
  if Storage.isFile s p then some (Storage.readText s p) else none

theorem Snapshot.load_of_text [Storage σ] {s : σ} {p : Path} {saved : Snapshot} (fits : saved.Fits)
    (text : Storage.fileText s p = some (.ok saved.render)) :
    Snapshot.load s p = .ok (some saved) := by
  unfold Storage.fileText at text
  unfold Snapshot.load
  split at text
  next file =>
    rw [if_pos file, Option.some.inj text]
    simp only [Snapshot.parse_render fits]
  next => cases text

/-- What a snapshot is loaded from is the text of its file. -/
theorem Snapshot.load_congr [Storage σ] {s s' : σ} {p : Path}
    (same : Storage.fileText s' p = Storage.fileText s p) :
    Snapshot.load s' p = Snapshot.load s p := by
  unfold Storage.fileText at same
  unfold Snapshot.load
  split at same <;> split at same <;> simp_all

/-- Nothing but the engine writes to a path. Where `S` holds, a write that is accepted changes what
stands at its own path only, text is read back, and nothing else changes the path. -/
structure Reserved [Workshop σ] (p : Path) (spelled : ByteArray → Except IoError String)
    (S : σ → Prop) : Prop where
  text : ∀ t : String, spelled t.toUTF8 = .ok t
  accepted : ∀ {s s' : σ} {q : Path} {content : ByteArray}, S s →
    Storage.write s q content = (.ok (), s') →
      S s' ∧ Storage.fileText s' p = if q == p then some (spelled content) else Storage.fileText s p
  refused : ∀ {s s' : σ} {q : Path} {content : ByteArray} {cause : IoError}, S s →
    Storage.write s q content = (.error cause, s') →
      S s' ∧ Storage.fileText s' p = Storage.fileText s p
  timed : ∀ (s : σ) (q : Path), S s → S (Storage.modified s q).2 ∧
    Storage.fileText (Storage.modified s q).2 p = Storage.fileText s p
  compiled : ∀ {s s' : σ}, S s → Wanders s s' →
    S s' ∧ Storage.fileText s' p = Storage.fileText s p

end

theorem lastWritten_cons_other {p : Path} {event : Event} (silent : event.writtenTo? p = none)
    (trace : List Event) : lastWritten p (event :: trace) = lastWritten p trace := by
  rw [lastWritten, List.findSome?_cons_of_isNone (by rw [silent]; rfl)]
  rfl

theorem lastWritten_wrote (p q : Path) (content : ByteArray) (trace : List Event) :
    lastWritten p (.wrote q content :: trace) =
      if q == p then some content else lastWritten p trace := by
  unfold lastWritten Event.writtenTo?
  rw [List.findSome?_cons]
  split <;> split <;> simp_all

section

variable {σ : Type} [Workshop σ] {p : Path} {spelled : ByteArray → Except IoError String}
  {S : σ → Prop} {start : Option (Except IoError String)}

/-- The file at a path reads as what a trace last wrote to it, or else as it did at the start. -/
structure Stands (p : Path) (spelled : ByteArray → Except IoError String) (S : σ → Prop)
    (start : Option (Except IoError String)) (s : σ) (trace : List Event) : Prop where
  among : S s
  text : Storage.fileText s p = ((lastWritten p trace).map spelled).or start

namespace Stands

variable {s s' : σ} {trace : List Event}

theorem moved (h : Stands p spelled S start s trace)
    (same : S s' ∧ Storage.fileText s' p = Storage.fileText s p) :
    Stands p spelled S start s' trace :=
  ⟨same.1, same.2.trans h.text⟩

theorem note (h : Stands p spelled S start s trace) {event : Event}
    (silent : event.writtenTo? p = none) : Stands p spelled S start s (event :: trace) :=
  ⟨h.among, by rw [lastWritten_cons_other silent, h.text]⟩

theorem wrote (h : Stands p spelled S start s trace) (reserved : Reserved p spelled S) {q : Path}
    {content : ByteArray} (written : Storage.write s q content = (.ok (), s')) :
    Stands p spelled S start s' (.wrote q content :: trace) := by
  obtain ⟨among, text⟩ := reserved.accepted h.among written
  refine ⟨among, ?_⟩
  rw [text, lastWritten_wrote, h.text]
  split <;> simp

end Stands

theorem Reserved.carried (reserved : Reserved p spelled S) :
    Carried (Stands p spelled S start) where
  wrote h written := h.wrote reserved written
  refused h refused := h.moved (reserved.refused h.among refused)
  timed q h := h.moved (reserved.timed _ q h.among)
  compiled h how := h.moved (reserved.compiled h.among how)
  told {s trace event} h silent := by
    refine h.note ?_
    cases event <;> first | rfl | cases silent

namespace Engine

variable {e : Engine σ}

/-- Whoever changes the disk during a run leaves the file at a path alone. -/
def LeavesFile (p : Path) (S : σ → Prop) (e : Engine σ) (acts : List (Act σ)) : Prop :=
  ∀ front site back, acts = front ++ .siteChanged site :: back →
    S site ∧ Storage.fileText site p = Storage.fileText (e.run front).site p

theorem LeavesFile.act {a : Act σ} {rest : List (Act σ)} (h : e.LeavesFile p S (a :: rest)) :
    (∀ site, a = .siteChanged site →
      S site ∧ Storage.fileText site p = Storage.fileText e.site p) ∧
      (e.act a).LeavesFile p S rest := by
  refine ⟨fun site same => h [] site rest (by rw [same]; rfl), fun front site back same => ?_⟩
  exact h (a :: front) site back (by rw [same, List.cons_append])

theorem LeavesFile.nil : e.LeavesFile p S [] := by
  intro front site back whole
  simp at whole

theorem LeavesFile.cons {a : Act σ} {rest : List (Act σ)}
    (first : ∀ site, a = .siteChanged site →
      S site ∧ Storage.fileText site p = Storage.fileText e.site p)
    (others : (e.act a).LeavesFile p S rest) : e.LeavesFile p S (a :: rest) := by
  intro front site back whole
  cases front with
  | nil => exact first site (List.cons.inj whole).1
  | cons b front =>
    obtain ⟨rfl, rest⟩ := List.cons.inj whole
    exact others front site back rest

theorem LeavesFile.append {acts more : List (Act σ)} (h : e.LeavesFile p S acts)
    (later : (e.run acts).LeavesFile p S more) : e.LeavesFile p S (acts ++ more) := by
  induction acts generalizing e with
  | nil => exact later
  | cons a rest ih => exact .cons h.act.1 (ih h.act.2 later)

theorem act_stands (reserved : Reserved p spelled S) {a : Act σ}
    (outside : ∀ site, a = .siteChanged site →
      S site ∧ Storage.fileText site p = Storage.fileText e.site p)
    (h : Stands p spelled S start e.site e.trace) :
    Stands p spelled S start (e.act a).site (e.act a).trace :=
  reserved.carried.act (fun site same => h.moved (outside site same)) h

/-- In every run the file reads as what the engine last wrote to it. -/
theorem run_stands (reserved : Reserved p spelled S) (acts : List (Act σ))
    (outside : e.LeavesFile p S acts) (h : Stands p spelled S start e.site e.trace) :
    Stands p spelled S start (e.run acts).site (e.run acts).trace := by
  induction acts generalizing e with
  | nil => exact h
  | cons a rest ih => exact ih outside.act.2 (act_stands reserved outside.act.1 h)

end Engine

end

namespace MemoryDisk

/-- How the bytes of a file are read. -/
def spelled (content : ByteArray) : Except IoError String :=
  (decodeText content).mapError .notText

theorem fileText_eq (d : MemoryDisk) (p : Path) :
    Storage.fileText d p = (contentAt d.entries p.parts).map spelled := by
  have text : Storage.fileText d p =
      if (contentAt d.entries p.parts).isSome then some (d.readText p) else none := by
    rw [← isFile_eq]
    rfl
  rw [text, readText, lookup_eq, contentAt]
  cases standsAt d.entries p.parts with
  | none => rfl
  | some e => cases e <;> rfl

/-- A file that is written reads as what was written, and all others as before. -/
theorem fileText_addFile (d : MemoryDisk) (q p : Path) (content : ByteArray) :
    Storage.fileText (d.addFile q content) p =
      if q == p then some (spelled content) else Storage.fileText d p := by
  have bytes : contentAt (d.addFile q content).entries p.parts =
      if q.parts = p.parts then some content else contentAt d.entries p.parts :=
    view_addFile (fun _ => rfl) d q content p.parts
  rw [fileText_eq, fileText_eq, bytes]
  by_cases same : q.parts = p.parts
  · rw [if_pos same, if_pos (Path.beq_iff.mpr same)]
    rfl
  · rw [if_neg same, if_neg (by simpa [Path.beq_iff] using same)]

theorem spelled_toUTF8 (text : String) : spelled text.toUTF8 = .ok text := by
  rw [spelled, decodeText_toUTF8]
  rfl

end MemoryDisk

namespace Sandbox

open MemoryDisk

theorem fileText_eq (s : Sandbox) (p : Path) :
    Storage.fileText s p = (contentAt s.disk.entries p.parts).map spelled :=
  s.disk.fileText_eq p

theorem fileText_write (s : Sandbox) (q p : Path) (content : ByteArray) :
    Storage.fileText (s.mapDisk (·.addFile q content)) p =
      if q == p then some (spelled content) else Storage.fileText s p :=
  s.disk.fileText_addFile q p content

/-- The scripted compiler writes nothing, so no path of the disk in memory is written to but by
the engine. -/
theorem reserved (p : Path) : Reserved p spelled (fun _ : Sandbox => True) where
  text := spelled_toUTF8
  accepted {s _ q content} _ written := by
    rw [Sandbox.write_ok written]
    exact ⟨trivial, s.fileText_write q p content⟩
  refused _ refused := by
    obtain ⟨faults, rfl⟩ := Sandbox.write_refused refused
    exact ⟨trivial, rfl⟩
  timed s q _ := by
    refine ⟨trivial, ?_⟩
    have same : (s.disk.modified q).2.entries = s.disk.entries := modified_entries s.disk q
    rw [fileText_eq, fileText_eq]
    change (contentAt (s.disk.modified q).2.entries p.parts).map spelled = _
    rw [same]
  compiled _ how := by
    cases how <;> exact ⟨trivial, rfl⟩

end Sandbox

/-- A storage in which a write that is accepted leaves a file at its path, which reads as the text
that the bytes spell. -/
class Storage.Keeps (σ : Type) [Storage σ] : Prop where
  reads : ∀ {s s' : σ} {p : Path} {text : String},
    Storage.write s p text.toUTF8 = (.ok (), s') → Storage.fileText s' p = some (.ok text)

instance : Storage.Keeps MemoryDisk where
  reads {d d' p text} written := by
    have accepted : d' = d.addFile p text.toUTF8 := by
      change d.write p text.toUTF8 = (.ok (), d') at written
      unfold MemoryDisk.write at written
      split at written
      next => cases written
      next => exact (congrArg Prod.snd written).symm
    rw [accepted, d.fileText_addFile, if_pos (Path.beq_iff.mpr rfl), MemoryDisk.spelled_toUTF8]

instance : Storage.Keeps Sandbox where
  reads {s s' p text} written := by
    rw [Sandbox.write_ok written, s.fileText_write, if_pos (Path.beq_iff.mpr rfl),
      MemoryDisk.spelled_toUTF8]

instance {σ : Type} [Machine σ] [Storage.Keeps σ] : Storage.Keeps (Workbench σ) where
  reads {b b' p text} written := by
    have answer : (Storage.write b.machine p text.toUTF8).1 = .ok () :=
      (congrArg Prod.fst written :)
    have machine : (Storage.write b.machine p text.toUTF8).2 = b'.machine :=
      (congrArg (fun r => r.2.machine) written :)
    have kept : Storage.write b.machine p text.toUTF8 = (.ok (), b'.machine) :=
      Prod.ext answer machine
    exact (Storage.Keeps.reads kept :)

namespace Snapshot

variable {σ : Type} [Storage σ] [Storage.Keeps σ] {saved : Snapshot} {s s' : σ} {p : Path}

/-- What was saved is what is loaded, whatever the paths, stages and start times; and saving it
again writes the same bytes. -/
theorem save_load (fits : saved.Fits) (written : saved.save s p = (.ok (), s')) :
    load s' p = .ok (some saved) ∧
      ∀ loaded, load s' p = .ok (some loaded) →
        loaded.save s' p = Storage.write s' p saved.render.toUTF8 ∧
          ∀ s'', loaded.save s' p = (.ok (), s'') →
            Storage.fileText s'' p = Storage.fileText s' p := by
  have text : Storage.fileText s' p = some (.ok saved.render) := Storage.Keeps.reads written
  have found : load s' p = .ok (some saved) := load_of_text fits text
  refine ⟨found, fun loaded same => ?_⟩
  obtain rfl : saved = loaded := by simpa [found] using same
  refine ⟨rfl, fun s'' again => ?_⟩
  rw [text]
  exact Storage.Keeps.reads again

/-- A snapshot with a quote, a backslash, a line break, a letter that is not plain and a tab in its
paths, with jobs in all stages and the greatest start time. -/
def oddSnapshot : Snapshot where
  pending := ["a\"b\\c.ink", "d\ne.ink", ""]
  active := [⟨"é\t.ink", .queued, none⟩, ⟨"x.ink", .compiling, some 0⟩,
    ⟨"x.ink", .complete, some (startTimeBound - 1)⟩]

theorem odd_snapshot_save_load :
    let p := Path.ofText "/story/.inkwatch/queue.json"
    let disk := (oddSnapshot.save MemoryDisk.empty p).2
    load disk p = .ok (some oddSnapshot) := by
  intro p disk
  have fits : oddSnapshot.Fits := by
    unfold Fits SavedJob.Fits oddSnapshot
    decide
  have written : oddSnapshot.save MemoryDisk.empty p = (.ok (), disk) := rfl
  exact (save_load fits written).1

end Snapshot

end StoryBuild
