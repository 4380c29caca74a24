import StoryBuild.Sandbox
import StoryBuild.Proofs.PathEndings
import StoryBuild.Proofs.Snapshots

namespace StoryBuild

/-- The extension of source files, in small letters. -/
def GraphOptions.ending (o : GraphOptions) : List Char :=
  o.extension.toList.map Char.toLower

theorem GraphOptions.ending_of_source {o : GraphOptions} {p : Path} (h : o.isSource p = true) :
    p.ending? = some o.ending := by
  unfold isSource at h
  rw [Bool.and_eq_true, Bool.and_eq_true, Option.any_eq_true] at h
  obtain ⟨⟨⟨e, ext, same⟩, -⟩, -⟩ := h
  rw [Path.ending?, ext, Option.map_some, beq_iff_eq.mp same, ending]

theorem json_plain : '/' ∉ "json".toList := by decide

theorem json_long : 1 < "json".toList.length := by decide

namespace FileGraph

/-- Where a file would stand among the artifacts under its own name. -/
def amongArtifacts (g : FileGraph) (p : Path) : Path :=
  g.absolute (match g.options.outputDir with
    | some dir => dir.join p
    | none => p)

/-- The artifact of a master is that of its twins and of no other source, and it is no source
unless sources end as artifacts do. Paths from the project that step along plain parts are twins
wherever artifacts go. -/
structure OwnArtifact (g : FileGraph) (m : Path) : Prop where
  twins : ∀ n : Path, n.ending? = some g.options.ending →
    ((g.absolute (g.artifactPath m) == g.absolute (g.artifactPath n)) = true ↔
      (g.amongArtifacts m).Twins (g.amongArtifacts n))
  plain : ∀ n : Path, n.ending? = some g.options.ending → (∀ part ∈ m.parts, Path.Plain part) →
    (∀ part ∈ n.parts, Path.Plain part) →
      ((g.artifactPath m == g.artifactPath n) = true ↔ m.Twins n)
  sources : g.options.ending ≠ "json".toList → ∀ f : Path, f.ending? = some g.options.ending →
    (g.artifactPath m == f) = false ∧
      (g.absolute (g.artifactPath m) == g.absolute f) = false

variable {g new : FileGraph} {m n p : Path} {small : List Char}

theorem artifact_parts (h : m.ending? = some small) :
    (g.absolute (g.artifactPath m)).parts = ((g.amongArtifacts m).withExtension "json").parts := by
  unfold artifactPath GraphOptions.artifactPath amongArtifacts
  cases g.options.outputDir with
  | none => exact g.root.join_withExtension json_plain json_long h
  | some dir =>
    have inner := dir.join_withExtension json_plain json_long h
    exact (g.absolute_congr inner).trans
      (g.root.join_withExtension json_plain json_long (dir.join_ending h))

theorem ending_amongArtifacts (h : m.ending? = some small) :
    (g.amongArtifacts m).ending? = some small := by
  unfold amongArtifacts
  split
  next dir _ => exact g.root.join_ending (dir.join_ending h)
  next => exact g.root.join_ending h

theorem ending_artifact (h : m.ending? = some small) :
    (g.artifactPath m).ending? = some "json".toList := by
  have file : (m.withExtension "json").ending? = some "json".toList :=
    Path.withExtension_ending json_plain json_long (by decide) h
  unfold artifactPath GraphOptions.artifactPath
  split
  next dir _ => exact dir.join_ending file
  next => exact file

/-- Of plain paths every artifact path tells the directory and the stem. -/
theorem artifactPath_same (hm : m.ending? = some small) (hn : n.ending? = some small)
    (plain_m : ∀ part ∈ m.parts, Path.Plain part) (plain_n : ∀ part ∈ n.parts, Path.Plain part) :
    (g.artifactPath m).parts = (g.artifactPath n).parts ↔ m.Twins n := by
  have files := Path.withExtension_twins json_plain json_long hm hn
  have plain {p : Path} (hp : p.ending? = some small) (all : ∀ part ∈ p.parts, Path.Plain part) :
      ∀ part ∈ (p.withExtension "json").parts, Path.Plain part := by
    obtain ⟨-, stem, -, -, stem_, -⟩ := Path.ending_parts hp
    have parts := Path.withExtension_stem json_plain json_long stem_
    intro part hpart
    have mem := hpart
    rw [parts] at hpart
    rcases List.mem_append.mp hpart with dir | last
    · exact all part ((List.dropLast_sublist _).subset dir)
    · rw [List.mem_singleton.mp last] at mem ⊢
      exact .inr ⟨_, rfl, Path.isName_of_mem_parts mem⟩
  rw [← files, artifactPath, artifactPath, GraphOptions.artifactPath, GraphOptions.artifactPath]
  split
  next dir _ =>
    obtain ⟨front, behind⟩ := dir.join_behind []
    rw [behind (plain hm plain_m) rfl, behind (plain hn plain_n) rfl]
    exact List.append_right_inj front
  next => rfl

theorem ownArtifact (h : m.ending? = some g.options.ending) : g.OwnArtifact m := by
  refine ⟨fun n hn => ?_, fun n hn plain_m plain_n => ?_, fun other f hf => ?_⟩
  · rw [Path.beq_iff, artifact_parts h, artifact_parts hn]
    exact Path.withExtension_twins json_plain json_long (ending_amongArtifacts h)
      (ending_amongArtifacts hn)
  · rw [Path.beq_iff]
    exact artifactPath_same h hn plain_m plain_n
  · have apart {p q : Path} (hp : p.ending? = some "json".toList)
        (hq : q.ending? = some g.options.ending) : (p == q) = false := by
      refine Path.beq_false_iff.mpr fun same => other ?_
      have endings := Path.ending_of_fileName (Path.fileName_congr same)
      rw [hp, hq] at endings
      exact (Option.some.inj endings).symm
    exact ⟨apart (ending_artifact h) hf,
      apart (g.root.join_ending (ending_artifact h)) (g.root.join_ending hf)⟩

/-- Beside its master, the artifact of a file that ends as artifacts do is the file itself. -/
theorem artifact_self (beside : g.options.outputDir = none) (json : m.extension? = some "json") :
    (g.artifactPath m == m) = true := by
  obtain ⟨name, named, split_⟩ := Option.bind_eq_some_iff.mp json
  obtain ⟨ending, cut, text⟩ := Option.map_eq_some_iff.mp split_
  obtain ⟨base, parts⟩ := MemoryDisk.parts_of_fileName named
  obtain ⟨whole, -, -⟩ := splitName_some cut
  have letters : ending = "json".toList := by rw [← text, String.toList_ofList]
  rw [Path.beq_iff, artifactPath, GraphOptions.artifactPath, beside]
  dsimp only
  rw [Path.withExtension_parts parts json_plain json_long, ← letters, ← whole,
    String.ofList_toList, parts]

/-- Whether every tracked path ends as sources do. -/
def Sourced (g : FileGraph) : Prop :=
  ∀ f ∈ g.files, f.path.ending? = some g.options.ending

theorem Sourced.tracked (h : g.Sourced) (tracked : g.isTracked p = true) :
    p.ending? = some g.options.ending := by
  obtain ⟨f, hf, same⟩ := isTracked_iff.mp tracked
  rw [← Path.ending_of_fileName (Path.fileName_congr same)]
  exact h f hf

theorem Sourced.master (h : g.Sourced) (is_master : g.isMaster p = true) :
    p.ending? = some g.options.ending := by
  obtain ⟨f, found, -⟩ := (Option.any_eq_true _ _).mp is_master
  obtain ⟨hf, same⟩ := file_found found
  exact h.tracked (isTracked_iff.mpr ⟨f, hf, same⟩)

theorem Sourced.of_mem (h : g.Sourced) (options : new.options = g.options)
    (known : ∀ q ∈ new.paths, q ∈ g.paths ∨ g.options.isSource q = true) : new.Sourced := by
  intro f hf
  rw [options]
  rcases known _ (List.mem_map_of_mem hf) with old | source
  · obtain ⟨k, hk, path⟩ := List.mem_map.mp old
    exact path ▸ h k hk
  · exact GraphOptions.ending_of_source source

theorem Sourced.congr (h : g.Sourced) (options : new.options = g.options)
    (paths : new.paths = g.paths) : new.Sourced :=
  h.of_mem options fun _ hq => .inl (paths ▸ hq)

variable {σ : Type} [Storage σ]

theorem refresh_sourced (h : g.Sourced) (s : σ) (p : Path) :
    (g.refresh s p).2.graph.Sourced :=
  h.of_mem (congrArg FileGraph.options (refresh_place g s p) :) fun _ hq =>
    (refresh_tracks hq).imp_right fun ⟨same, source⟩ => same ▸ source

theorem scan_isSource {s : σ} {found : List Path} (scanned : g.scan s = .ok found) :
    ∀ p ∈ found, g.options.isSource p = true := by
  refine scan_forall (fun entries p hp => ?_) scanned
  obtain ⟨e, he, rfl⟩ := List.mem_map.mp hp
  exact (Bool.and_eq_true_iff.mp (List.mem_filter.mp he).2).2

theorem rebuild_sourced (h : g.Sourced) (s : σ) : (g.rebuild s).2.graph.Sourced := by
  refine h.of_mem (congrArg FileGraph.options (rebuild_place g s) :) fun q hq => ?_
  refine (rebuild_tracks hq).imp_right ?_
  rintro ⟨found, scanned, among⟩
  exact scan_isSource scanned q among

theorem build_sourced {root : Path} {options : GraphOptions} {s : σ} {reading : Reading σ}
    (built : build root options s = .ok reading) : reading.graph.Sourced := by
  have kept := rebuild_sourced (g := empty root options) (fun f hf => nomatch hf) s
  rwa [rebuild_of_build built] at kept

end FileGraph

/-- Whether an event tells that a master was queued or something was written. -/
def Event.isEntry : Event → Bool
  | .queued _ _ => true
  | .wrote _ _ => true
  | _ => false

namespace Desk

variable {σ : Type} [Workshop σ] {R : Rules} {c d : Desk σ} {g : FileGraph}

/-- What a step tells: a master is queued, a snapshot or the output of a job is written, or it is
none of these. -/
inductive Tells (c : Desk σ) : Event → Prop where
  | queued {id : Nat} {m : Path} (is_master : c.graph.isMaster m = true) : Tells c (.queued id m)
  | saved {p : Path} {content : ByteArray} (kept : c.options.statePath = some p) :
      Tells c (.wrote p content)
  | filed {j : Job} {content : ByteArray} (mine : j ∈ c.jobs ∨ j ∈ c.abandoned) :
      Tells c (.wrote j.output content)
  | other {event : Event} (neither : event.isEntry = false) : Tells c event

theorem step_tells (step : Step R c d) :
    ∃ events, d.trace = events ++ c.trace ∧ ∀ event ∈ events, c.Tells event := by
  have one {event : Event} (said : c.Tells event) : ∀ x ∈ [event], c.Tells x := by
    simpa using said
  cases step with
  | tell event quiet =>
    refine ⟨[event], rfl, one (.other ?_)⟩
    cases event <;> first | rfl | cases quiet
  | save p kept => exact ⟨[_], rfl, one (.saved kept)⟩
  | queue master immediate may is_master => exact ⟨[_], rfl, one (.queued is_master)⟩
  | start j now wall launch =>
    refine ⟨_, rfl, fun event hevent => .other ?_⟩
    cases launch <;> simp only [Launch.events, List.mem_cons, List.not_mem_nil, or_false] at hevent <;>
      rcases hevent with rfl | rfl | rfl | rfl <;> rfl
  | refuse | collect | fire | abandon | restrict | edit | take | turn =>
    exact ⟨[_], rfl, one (.other rfl)⟩
  | @drain e =>
    obtain ⟨deeds, graph, site, said, -, -, same⟩ := e.applyBatch_desk .due true
    refine ⟨.drained e.batchJobs e.applyBatch.1 :: deeds, by rw [same]; rfl, fun event hevent => ?_⟩
    rcases List.mem_cons.mp hevent with rfl | hevent
    · exact .other rfl
    · cases said event hevent with
      | wrote mine => exact .filed (Engine.batchJobs_mem.mp mine)
      | _ => exact .other rfl
  | drop =>
    refine ⟨_, rfl, fun event hevent => .other ?_⟩
    obtain ⟨k, -, rfl⟩ := List.mem_map.mp (List.mem_reverse.mp hevent)
    rfl
  | _ => exact ⟨[], rfl, fun _ hevent => absurd hevent List.not_mem_nil⟩

/-- Only sources are tracked and queued, and besides snapshots only their artifacts are written. -/
structure Files (g : FileGraph) (d : Desk σ) : Prop where
  aimed : d.Aimed g
  sourced : d.graph.Sourced
  queued : ∀ id m, .queued id m ∈ d.trace → m.ending? = some g.options.ending
  wrote : ∀ q content, .wrote q content ∈ d.trace → d.options.statePath = some q ∨
    ∃ id m, .queued id m ∈ d.trace ∧ q = g.absolute (g.artifactPath m)

theorem step_files (step : Step R c d) (h : c.Files g) : d.Files g := by
  obtain ⟨events, trace, tells⟩ := step_tells step
  have options := step_options step
  have place : d.graph.place = c.graph.place := (congrArg FileGraph.place (step_links step) :)
  have paths : d.graph.paths = c.graph.paths :=
    FileGraph.paths_of_mapFiles (step_links step) fun _ => rfl
  have ending : c.graph.options.ending = g.options.ending :=
    (congrArg (fun x : FileGraph => x.options.ending) h.aimed.place :)
  refine ⟨step_aimed step h.aimed, h.sourced.congr (congrArg FileGraph.options place :) paths, ?_, ?_⟩
  · intro id m queued
    rw [trace] at queued
    rcases List.mem_append.mp queued with new | old
    · cases tells _ new with
      | queued is_master =>
        rw [← ending]
        exact h.sourced.master is_master
      | other neither => cases neither
    · exact h.queued id m old
  · intro q content wrote
    rw [trace] at wrote ⊢
    rw [options]
    rcases List.mem_append.mp wrote with new | old
    · cases tells _ new with
      | saved kept => exact .inl kept
      | @filed j _ mine =>
        obtain ⟨queued, output⟩ := h.aimed.jobs j mine
        exact .inr ⟨j.id, j.path, List.mem_append_right _ queued, output⟩
      | other neither => cases neither
    · refine (h.wrote q content old).imp_right ?_
      rintro ⟨id, m, queued, place⟩
      exact ⟨id, m, List.mem_append_right _ queued, place⟩

end Desk

namespace Engine

variable {σ : Type} [Workshop σ] {g : FileGraph} {e : Engine σ}

theorem look_files (h : (e.desk .steady true).Files g) (a : Act σ) :
    ((e.look a).desk .steady true).Files g := by
  have place : (e.look a).graph.place = g.place := (e.look_place a).trans h.aimed.place
  have sourced : (e.look a).graph.Sourced :=
    look_graph (fun p _ => FileGraph.refresh_sourced h.sourced _ p)
      (FileGraph.rebuild_sourced h.sourced _) h.sourced
  obtain ⟨graph, site, events, quiet, same⟩ := e.look_desk .steady a
  -- A look tells quiet events only, so what was queued or written is known from before.
  have old {event : Event} (loud : event.isQuiet = false) (told : event ∈ events ++ e.trace) :
      event ∈ e.trace := by
    refine (List.mem_append.mp told).resolve_left fun new => ?_
    rw [quiet event new] at loud
    cases loud
  refine ⟨⟨place, ?_⟩, sourced, ?_, ?_⟩ <;> rw [same]
  · exact fun j hj => (h.aimed.jobs j hj).imp_left (List.mem_append_right _)
  · exact fun id m queued => h.queued id m (old rfl queued)
  · intro q content wrote
    refine (h.wrote q content (old rfl wrote)).imp_right ?_
    rintro ⟨id, m, queued, place⟩
    exact ⟨id, m, List.mem_append_right _ queued, place⟩

theorem run_files (acts : List (Act σ)) (h : (e.desk .steady true).Files g) :
    ((e.run acts).desk .steady true).Files g := by
  refine run_preserves (P := fun e => (e.desk .steady true).Files g) (fun a _ e' h => ?_) h
  exact Desk.course_preserves Desk.step_files
    (act_course Rules.free_lenient (e'.allows_free a)) (look_files h a)

omit [Workshop σ] in
theorem fresh_files {settings : EngineOptions} {site : σ} {dawn : Nat} (sourced : g.Sourced) :
    ((fresh g settings site dawn).desk .steady true).Files g :=
  ⟨⟨rfl, fun _ hj => by simp [desk, fresh] at hj⟩, sourced, nofun, nofun⟩

/-- Whatever happens to an engine over a graph that was built: what is tracked ends as sources do,
and besides snapshots only artifacts of such files are written, each of them clear of all sources and
of all other artifacts but those of twins. Where sources end as artifacts do and lie beside them, the
artifact of a source can be the source itself. -/
theorem run_writes_artifacts {root : Path} {options : GraphOptions} {site : σ}
    {reading : FileGraph.Reading σ} (built : FileGraph.build root options site = .ok reading)
    (settings : EngineOptions) (dawn : Nat) (acts : List (Act σ)) :
    let g := reading.graph
    let now := (fresh g settings reading.storage dawn).run acts
    (∀ m, now.graph.isTracked m = true → m.ending? = some g.options.ending ∧ g.OwnArtifact m) ∧
      (∀ q content, .wrote q content ∈ now.trace → settings.statePath = some q ∨
        ∃ id m, .queued id m ∈ now.trace ∧ m.ending? = some g.options.ending ∧
          q = g.absolute (g.artifactPath m) ∧ g.OwnArtifact m) ∧
      (g.options.outputDir = none → ∀ m, m.extension? = some "json" →
        (g.artifactPath m == m) = true) := by
  intro g now
  have files : (now.desk .steady true).Files g :=
    run_files acts (fresh_files (FileGraph.build_sourced built))
  have ending : now.graph.options.ending = g.options.ending :=
    (congrArg (fun x : FileGraph => x.options.ending) files.aimed.place :)
  refine ⟨fun m tracked => ?_, fun q content wrote => ?_, fun beside m json => ?_⟩
  · have source : m.ending? = some now.graph.options.ending := files.sourced.tracked tracked
    rw [ending] at source
    exact ⟨source, FileGraph.ownArtifact source⟩
  · have kept : now.options = settings := run_options _ acts
    refine (files.wrote q content wrote).imp (fun saved => kept ▸ saved) ?_
    rintro ⟨id, m, queued, place⟩
    have source := files.queued id m queued
    exact ⟨id, m, queued, source, place, FileGraph.ownArtifact source⟩
  · exact FileGraph.artifact_self beside json

/-- A disk with one story. -/
def lowerStory : Sandbox where
  disk := MemoryDisk.empty.addFile (.ofText "/story/a.ink") .empty

/-- The same name in other letters is added, and both stories are compiled. -/
def twinRun : List (Act Sandbox) :=
  [.siteChanged (lowerStory.mapDisk fun disk => disk.addFile (.ofText "/story/a.INK") .empty),
    .sourceChanged (.ofText "a.ink"), .sourceChanged (.ofText "a.INK"), .poll 0, .poll 0, .poll 0]

/-- The places that were written to, the latest first. -/
def writtenPlaces (trace : List Event) : List String :=
  trace.filterMap fun
    | .wrote q _ => some q.text
    | _ => none

theorem twins_share_an_artifact :
    ∃ reading, FileGraph.build (.ofText "/story") { extension := "ink" } lowerStory = .ok reading ∧
      writtenPlaces ((fresh reading.graph {} reading.storage 0).run twinRun).trace =
        ["/story/a.json", "/story/a.json"] ∧
      (reading.graph.artifactPath (.ofText "a.ink") ==
        reading.graph.artifactPath (.ofText "a.INK")) = true := by
  have wanted : ((FileGraph.build (.ofText "/story") { extension := "ink" }
      lowerStory).toOption.map fun reading =>
        let now := (fresh reading.graph {} reading.storage 0).run twinRun
        (writtenPlaces now.trace, now.graph.isTracked (.ofText "a.ink"),
          now.graph.isTracked (.ofText "a.INK"))) =
      some (["/story/a.json", "/story/a.json"], true, true) := by decide +kernel
  cases built : FileGraph.build (.ofText "/story") { extension := "ink" } lowerStory with
  | error cause => simp [built, Except.toOption] at wanted
  | ok reading =>
    simp only [built, Except.toOption, Option.map_some, Option.some.injEq, Prod.mk.injEq] at wanted
    obtain ⟨written, lower, upper⟩ := wanted
    obtain ⟨tracked, -, -⟩ := run_writes_artifacts built {} 0 twinRun
    have plain (s : String) (one : (Path.ofText s).parts = [.name s]) :
        ∀ part ∈ (Path.ofText s).parts, Path.Plain part := by
      have name : IsName s := Path.isName_of_mem_parts (one ▸ List.mem_singleton_self _)
      rw [one]
      simpa using .inr ⟨s, rfl, name⟩
    refine ⟨reading, rfl, written, ((tracked _ lower).2.plain _ (tracked _ upper).1 ?_ ?_).mpr ?_⟩
    · exact plain "a.ink" (by decide)
    · exact plain "a.INK" (by decide)
    · decide

end Engine

end StoryBuild
