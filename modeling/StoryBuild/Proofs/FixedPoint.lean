import StoryBuild.Proofs.FailedMasters
import StoryBuild.Proofs.Restoring
import StoryBuild.Proofs.TimedCalls

namespace StoryBuild

namespace FileGraph

section Verdicts

variable {σ : Type} [Storage σ] {g new : FileGraph} {s s' : σ} {f : SourceFile}

/-- The stale masters are listed in the order of their paths. -/
theorem staleMasters_sorted (order : InPathOrder g.files) (s : σ) :
    (g.staleMasters s).1.Pairwise fun p q => p.before q = true := by
  have loop (l : List SourceFile) : ∀ s : σ,
      (g.staleAmong s l).1.Sublist (l.map SourceFile.path) := by
    induction l with
    | nil => exact fun _ => .slnil
    | cons f rest ih =>
      intro s
      unfold staleAmong
      dsimp only
      split
      next => exact (ih _).cons_cons f.path
      next => exact (ih _).cons f.path
  have masters : (g.masterFiles.map SourceFile.path).Pairwise fun p q => p.before q = true :=
    List.pairwise_map.mpr (order.filter _)
  exact masters.sublist (loop g.masterFiles s)

theorem masterFiles_of_linkage
    (links : new.mapFiles SourceFile.linkage = g.mapFiles SourceFile.linkage)
    (hf : f ∈ new.masterFiles) : ∃ k ∈ g.masterFiles, k.path = f.path := by
  obtain ⟨tracked, master⟩ := List.mem_filter.mp hf
  obtain ⟨k, hk, same⟩ := mem_of_view links tracked
  have parents : k.parents = f.parents := (congrArg SourceFile.parents same :)
  refine ⟨k, List.mem_filter.mpr ⟨hk, ?_⟩, (congrArg SourceFile.path same :)⟩
  rwa [SourceFile.isMaster, parents]

theorem file_of_masterFiles (order : InPathOrder g.files) (hf : f ∈ g.masterFiles) :
    g.file? f.path = some f ∧ g.isMaster f.path = true := by
  obtain ⟨tracked, master⟩ := List.mem_filter.mp hf
  have found := file_of_mem order tracked
  refine ⟨found, ?_⟩
  rw [isMaster, found]
  exact master

end Verdicts

end FileGraph

namespace Desk

variable {R : Rules} {c d : Desk Sandbox} {g : FileGraph} {files : List Path} {m : Path}
  {before : List Event} {base : List Event → Prop}

/-- What is tended stays so, whatever the rules are, unless jobs are dropped. -/
theorem course_tended (course : Course R c d) (keeps : ∀ core pending, ¬ R.drop core pending)
    (apart : c.Apart g files) (within : before <:+ c.trace) (h : c.Tended m before base) :
    d.Tended m before base := by
  induction course with
  | refl => exact h
  | tail first step ih =>
    exact step_tended step keeps (course_preserves step_apart first apart)
      (within.trans (course_grows first)) ih

end Desk

namespace Engine

open FileGraph

section Opening

variable {σ : Type} [Workshop σ]

/-- The places of a project are apart: no artifact goes to a source or to another artifact, and the
snapshot goes to no source and to no artifact of a master that is compiled on request only. -/
structure PlacesApart (e : Engine σ) : Prop where
  sources : e.graph.ArtifactsApart e.graph.paths
  artifacts : ∀ f ∈ e.graph.masterFiles, ∀ k ∈ e.graph.masterFiles,
    (e.graph.absolute (e.graph.artifactPath f.path)).parts =
      (e.graph.absolute (e.graph.artifactPath k.path)).parts → f.path.parts = k.path.parts
  kept : ∀ p, e.options.statePath = some p → e.graph.Clear e.graph.paths p ∧
    ∀ f ∈ e.graph.masterFiles, e.options.manualOnly f.path = true →
      p.parts ≠ (e.graph.absolute (e.graph.artifactPath f.path)).parts

/-- While sources are edited, masters are asked for one by one, unless they have a job. -/
theorem compileEach_preserves {P : List Path → Engine σ → Prop}
    (skip : ∀ {p rest e}, e.hasActiveJob p = true → P (p :: rest) e → P rest e)
    (next : ∀ {p rest e}, e.mode = .editing → e.refusal? p = none → P (p :: rest) e →
      P rest (e.enqueue p false).2)
    (masters : List Path) {e : Engine σ} (editing : e.mode = .editing)
    (each : ∀ p ∈ masters, e.graph.isMaster p = true) (h : P masters e) :
    P [] (compileEach masters e).2 := by
  induction masters generalizing e with
  | nil => exact h
  | cons p rest ih =>
    have each' : ∀ q ∈ rest, e.graph.isMaster q = true :=
      fun q hq => each q (List.mem_cons_of_mem p hq)
    unfold compileEach
    split
    next active => exact ih editing each' (skip active h)
    next free =>
      have open_ : ¬ (e.mode == .restricted) = true := by rw [editing]; decide
      have accepted := refusal_none_of_free (each p List.mem_cons_self) (by simpa using free)
      obtain ⟨answer, -, -, graph, mode⟩ := enqueue_work accepted
      have after := next editing accepted h
      rw [if_neg open_]
      generalize e.enqueue p false = result at answer graph mode after
      obtain ⟨_, d⟩ := result
      cases answer
      exact ih (mode.trans editing) (fun q hq => graph ▸ each' q hq) after

end Opening

variable {e d now : Engine Sandbox}

/-- How a compile of all stale masters has come so far: some targets are left, each other master
that is not compiled on request only is tended, and the rest are bystanders. -/
structure Opens (e : Engine Sandbox) (left : List Path) (d : Engine Sandbox) : Prop where
  apart : (d.desk .steady true).Apart e.graph e.graph.paths
  within : e.trace <:+ d.trace
  options : d.options = e.options
  links : d.graph.mapFiles SourceFile.linkage = e.graph.mapFiles SourceFile.linkage
  none_waits : d.pending.order = []
  targets : ∀ p ∈ left, e.options.manualOnly p = false ∧ ∃ f ∈ e.graph.masterFiles, f.path = p
  tended : ∀ f ∈ e.graph.masterFiles, e.options.manualOnly f.path = false →
    f.path ∈ left ∨ (d.desk .steady true).Tended f.path e.trace fun _ => False
  bystanders : ∀ f ∈ e.graph.masterFiles, e.options.manualOnly f.path = true →
    KeepsVerdict f.path e.graph e.site d.graph d.site ∧ (d.desk .steady true).Bystander f.path

/-- A target that has a job is tended. -/
theorem Opens.skip {p : Path} {rest : List Path} (h : e.Opens (p :: rest) d)
    (active : d.hasActiveJob p = true) : e.Opens rest d := by
  refine { h with
    targets := fun q hq => h.targets q (List.mem_cons_of_mem p hq)
    tended := fun f hf automatic => ?_ }
  rcases h.tended f hf automatic with mem | tended
  · rcases List.mem_cons.mp mem with rfl | mem
    · obtain ⟨j, hj, mine⟩ := List.any_eq_true.mp active
      exact .inr (.busy (.inl hj) mine)
    · exact .inl mem
  · exact .inr tended

/-- A target that is queued is tended, and the bystanders stay aside. -/
theorem Opens.next {p : Path} {rest : List Path} (sound : e.graph.Sound)
    (places : e.PlacesApart) (h : e.Opens (p :: rest) d) (editing : d.mode = .editing)
    (accepted : d.refusal? p = none) : e.Opens rest (d.enqueue p false).2 := by
  have course := (enqueueAt_course Rules.keeping_lenient false true d.clock
    (Rules.keeping_lenient.queue _ editing) accepted).2
  obtain ⟨-, -, pending, -, -⟩ := enqueue_work accepted
  have inv : (d.desk .steady true).Apart e.graph e.graph.paths ∧
      e.trace <:+ (d.desk .steady true).trace := ⟨h.apart, h.within⟩
  refine ⟨Desk.course_preserves Desk.step_apart course h.apart,
    h.within.trans (Desk.course_grows course), (Desk.course_options course).trans h.options,
    (Desk.course_links course).trans h.links, ?_,
    fun q hq => h.targets q (List.mem_cons_of_mem p hq), fun f hf automatic => ?_,
    fun f hf manual => ?_⟩
  · rw [pending]
    exact remove_empty h.none_waits p
  · have lasting := Desk.tended_lasting e.graph e.graph.paths f.path e.trace fun _ => False
    rcases h.tended f hf automatic with mem | tended
    · rcases List.mem_cons.mp mem with rfl | mem
      · exact .inr (enqueue_lasts Rules.keeping_lenient lasting true inv editing accepted)
      · exact .inl mem
    · exact .inr (lasting.course course inv tended)
  · obtain ⟨verdict, bystander⟩ := h.bystanders f hf manual
    obtain ⟨automatic, k, hk, rfl⟩ := h.targets p List.mem_cons_self
    have place : d.graph.place = e.graph.place := h.apart.place
    have other : k.path.parts ≠ f.path.parts := by
      intro same
      obtain rfl := sound.order.unique (List.mem_filter.mp hk).1 (List.mem_filter.mp hf).1 same
      rw [manual] at automatic
      cases automatic
    have elsewhere : (d.newJob k.path false).output.parts ≠
        (d.graph.absolute (d.graph.artifactPath f.path)).parts := by
      change (d.graph.absolute (d.graph.artifactPath k.path)).parts ≠ _
      rw [artifact_of_place place, artifact_of_place place]
      exact fun same => other (places.artifacts k hk f hf same)
    have passes : (d.newJob k.path false).Passes d.graph f.path := ⟨other, elsewhere⟩
    obtain ⟨onward, bystander'⟩ := enqueue_bystander h.apart bystander editing accepted passes
    exact ⟨verdict.trans onward, bystander'⟩

/-- On a disk whose times can be read, the stale masters that are not compiled on request only are
the targets, and finding them changes nothing. -/
theorem targets_steady (timely : e.site.disk.Timely) :
    e.targets false =
      ((e.graph.staleMasters e.site).1.filter fun p => !e.options.manualOnly p, e) := by
  have same : (e.graph.staleMasters e.site).2 = e.site :=
    (staleMasters_steady (Sandbox.steady timely)).1
  simp only [targets, Bool.false_eq_true, if_false, same]

theorem mem_staleMasters (timely : e.site.disk.Timely) {p : Path} :
    p ∈ (e.graph.staleMasters e.site).1 ↔
      ∃ f ∈ e.graph.masterFiles, f.path = p ∧ ¬ e.graph.UpToDate e.site f :=
  (staleMasters_steady (Sandbox.steady timely)).2 p

/-- So it begins. -/
theorem opens_idle (sane : (e.desk .steady true).Sane) (sound : e.graph.Sound)
    (timed : e.graph.Timed e.site) (idle : e.isBusy = false) (none_waits : e.pending.order = [])
    (places : e.PlacesApart) :
    e.Opens ((e.graph.staleMasters e.site).1.filter fun p => !e.options.manualOnly p) e := by
  have none_ : ∀ j, ¬ (j ∈ e.jobs ∨ j ∈ e.abandoned) := by
    simp only [isBusy, Bool.or_eq_false_iff, Bool.not_eq_false', List.isEmpty_iff] at idle
    simp [idle.1, idle.2]
  refine ⟨⟨sane, rfl, fun f hf => List.mem_map_of_mem hf, timed, places.sources,
    fun j hj => absurd hj (none_ j), fun p kept => (places.kept p kept).1⟩,
    List.suffix_refl _, rfl, rfl, none_waits, fun p hp => ?_, fun f hf automatic => ?_,
    fun f hf manual => ?_⟩
  · obtain ⟨stale, automatic⟩ := List.mem_filter.mp hp
    obtain ⟨f, hf, path, -⟩ := (mem_staleMasters timed.timely).mp stale
    exact ⟨by simpa using automatic, f, hf, path⟩
  · by_cases upToDate : e.graph.UpToDate e.site f
    · refine .inr (.current fun k found => ?_)
      obtain rfl := Option.some.inj ((file_of_masterFiles sound.order hf).1.symm.trans found)
      exact upToDate
    · have stale := (mem_staleMasters timed.timely).mpr ⟨f, hf, rfl, upToDate⟩
      exact .inl (List.mem_filter.mpr ⟨stale, by simp [automatic]⟩)
  · exact ⟨.refl _ _ _, sound, (file_of_masterFiles sound.order hf).2,
      fun j hj => absurd hj (none_ j), fun p kept => (places.kept p kept).2 f hf manual⟩

/-- When all targets were asked for and the engine has come to rest after good batches, the masters
on request only that were stale before are left, and a second compile queues nothing. -/
theorem opens_settles (sound : e.graph.Sound) (timed : e.graph.Timed e.site)
    (opened : e.Opens [] d)
    (course : Desk.Course Rules.still (d.desk .steady true) (now.desk .steady true))
    (rested : now.isBusy = false) (good : ¬ Spoilt e.trace now.trace) :
    (now.graph.staleMasters now.site).1 =
        (e.graph.staleMasters e.site).1.filter e.options.manualOnly ∧
      now.compileAll false = (.ok [], now) := by
  have apart : (now.desk .steady true).Apart e.graph e.graph.paths :=
    Desk.course_preserves Desk.step_apart course opened.apart
  have timely : now.site.disk.Timely := apart.timed.timely
  have options : now.options = e.options := (Desk.course_options course).trans opened.options
  have links : now.graph.mapFiles SourceFile.linkage = e.graph.mapFiles SourceFile.linkage :=
    (Desk.course_links course).trans opened.links
  have order := inPathOrder_of_linkage sound.order links
  have automatic_current : ∀ f ∈ now.graph.masterFiles, e.options.manualOnly f.path = false →
      now.graph.UpToDate now.site f := by
    intro f hf automatic
    obtain ⟨k, hk, path⟩ := masterFiles_of_linkage links hf
    rw [← path] at automatic
    have tended := Desk.course_tended course (fun _ _ => id) opened.apart opened.within
      ((opened.tended k hk automatic).resolve_left List.not_mem_nil)
    rw [path] at tended
    cases tended with
    | spoilt spoilt => exact absurd spoilt good
    | busy held =>
      simp only [isBusy, Bool.or_eq_false_iff, Bool.not_eq_false', List.isEmpty_iff] at rested
      have held' : _ ∈ now.jobs ∨ _ ∈ now.abandoned := held
      rw [rested.1, rested.2] at held'
      simp at held'
    | current current => exact current f (file_of_masterFiles order hf).1
    | unasked based => exact based.elim
  have manual_kept : ∀ f ∈ e.graph.masterFiles, e.options.manualOnly f.path = true →
      KeepsVerdict f.path e.graph e.site now.graph now.site := by
    intro f hf manual
    obtain ⟨verdict, bystander⟩ := opened.bystanders f hf manual
    exact verdict.trans
      (Desk.course_keepsVerdict course (fun _ => id) opened.apart bystander).1
  have listed : (now.graph.staleMasters now.site).1 =
      (e.graph.staleMasters e.site).1.filter e.options.manualOnly := by
    refine sorted_ext (staleMasters_sorted order _)
      ((staleMasters_sorted sound.order _).filter _) fun p => ?_
    rw [mem_staleMasters timely, List.mem_filter, mem_staleMasters timed.timely]
    constructor
    · rintro ⟨f, hf, rfl, stale⟩
      obtain ⟨k, hk, path⟩ := masterFiles_of_linkage links hf
      cases manual : e.options.manualOnly f.path with
      | false => exact absurd (automatic_current f hf manual) stale
      | true =>
        refine ⟨⟨k, hk, path, fun upToDate => stale ?_⟩, rfl⟩
        have verdict := manual_kept k hk (path ▸ manual)
        refine verdict.onward (file_of_masterFiles sound.order hk).1 ?_ upToDate
        rw [path]
        exact (file_of_masterFiles order hf).1
    · rintro ⟨⟨k, hk, rfl, stale⟩, manual⟩
      obtain ⟨f, hf, path⟩ := masterFiles_of_linkage links.symm hk
      refine ⟨f, hf, path, fun upToDate => stale ?_⟩
      have verdict := (manual_kept k hk manual).symm
      rw [← path] at verdict
      refine verdict.onward (file_of_masterFiles order hf).1 ?_ upToDate
      rw [path]
      exact (file_of_masterFiles sound.order hk).1
  refine ⟨listed, ?_⟩
  have nothing : now.targets false = ([], now) := by
    rw [targets_steady timely, options, listed, List.filter_filter]
    simp
  rw [compileAll, nothing]
  rfl

/-- What holds of an engine over a disk in memory, whatever happened around it. -/
structure Orderly (e : Engine Sandbox) : Prop where
  sane : (e.desk .steady true).Sane
  sound : e.graph.Sound
  timed : e.graph.Timed e.site

theorem happen_orderly (h : e.Orderly) (x : Happening) : (e.happen x).Orderly := by
  have timed := happen_timed h.timed x
  cases x with
  | call a inside => exact ⟨act_sane h.sane a, act_sound a h.sound, timed⟩
  | _ => exact ⟨⟨h.sane.kept, h.sane.traced, h.sane.valid⟩, h.sound, timed⟩

theorem fresh_orderly {root : Path} {places : GraphOptions} {site : Sandbox}
    {reading : Reading Sandbox} (timely : site.disk.Timely)
    (built : build root places site = .ok reading) (options : EngineOptions) (dawn : Nat) :
    (fresh reading.graph options reading.storage dawn).Orderly :=
  have linked := (JustRead.built built).linked
  ⟨fresh_sane _ _ _ _, linked.2.sound linked.1, build_timed built timely⟩

end Engine

namespace Chronicle

open FileGraph

theorem after_orderly {c : Chronicle} (happenings : List Happening) (h : c.engine.Orderly) :
    (c.after happenings).engine.Orderly := by
  induction happenings generalizing c with
  | nil => exact h
  | cons x rest ih => exact ih (Engine.happen_orderly h x)

/-- After any run over a project on a disk in memory: if nothing is outstanding or waits while
sources are edited, and the places of the project are apart, then compiling all stale masters and
waiting for it leaves those that are compiled on request only and were stale before, as long as no
batch was spoilt, and compiling again queues nothing. Whatever comes of the compiles, a batch that
ends, now or within a call, shows the masters whose last job failed. -/
theorem run_compiles_stale {root : Path} {places : GraphOptions} {site : Sandbox}
    {reading : Reading Sandbox} (timely : site.disk.Timely)
    (built : build root places site = .ok reading) (options : EngineOptions) (dawn : Nat)
    (happenings : List Happening) :
    let e := ((fresh reading.graph options reading.storage dawn).after happenings).engine
    (e.isBusy = false → e.mode = .editing → e.pending.order = [] → e.PlacesApart →
      ∀ waits : List (Act Sandbox), (∀ a ∈ waits, a.IsWait) →
        let now := (e.compileAll false).2.run waits
        now.isBusy = false → ¬ Spoilt e.trace now.trace →
          (now.graph.staleMasters now.site).1 =
              (e.graph.staleMasters e.site).1.filter e.options.manualOnly ∧
            now.compileAll false = (.ok [], now)) ∧
      ∀ d : Engine Sandbox,
        d.graph.mapFiles SourceFile.linkage = e.graph.mapFiles SourceFile.linkage → ∀ t,
          (d.closeBatch t).2.ShowsFailures d.ended ∧
            ((d.pollAt t).1.completed.isSome = true →
              (d.pollAt t).2.ShowsFailures (d.beforeEnd t).ended) := by
  intro e
  have orderly : e.Orderly :=
    after_orderly happenings (Engine.fresh_orderly timely built options dawn)
  constructor
  · intro idle editing none_waits apart waits only now rested good
    have opened : e.Opens [] (e.compileAll false).2 := by
      have begun := Engine.opens_idle orderly.sane orderly.sound orderly.timed idle none_waits apart
      rw [Engine.compileAll, Engine.targets_steady orderly.timed.timely]
      refine Engine.compileEach_preserves (P := e.Opens) (fun active h => h.skip active)
        (fun editing accepted h => h.next orderly.sound apart editing accepted) _ editing
        (fun p hp => ?_) begun
      obtain ⟨-, f, hf, rfl⟩ := begun.targets p hp
      exact (file_of_masterFiles orderly.sound.order hf).2
    have course := (Engine.waits_still waits only opened.none_waits).1
    exact Engine.opens_settles orderly.sound orderly.timed opened course rested good
  · intro d links t
    have sound := orderly.sound.of_linkage links
    exact ⟨Engine.closeBatch_showsFailures sound t, Engine.pollAt_showsFailures sound t⟩

/-- One story. -/
def firstStory : Sandbox where
  disk := MemoryDisk.empty.addFile (.ofText "/story/a.ink") .empty

/-- The second story, which comes later, is compiled on request only, and the snapshot goes to some
path. -/
def onRequest (state : String) : EngineOptions where
  statePath := some (.ofText state)
  manualOnly p := p == .ofText "b.ink"

/-- The second story comes. -/
def secondStory : List Happening :=
  [.write (.ofText "/story/b.ink") .empty, .call (.sourceChanged (.ofText "b.ink")) trivial]

/-- The engine once it is there. -/
def bothStories (state : String) (reading : Reading Sandbox) : Engine Sandbox :=
  ((fresh reading.graph (onRequest state) reading.storage 0).after secondStory).engine

/-- What is stale before and after a compile of all that is. -/
def staleTwice (e : Engine Sandbox) : List String × List String :=
  let now := (e.compileAll false).2.run [.poll 0]
  ((e.graph.staleMasters e.site).1.map Path.text,
    (now.graph.staleMasters now.site).1.map Path.text)

theorem request_only_stays_stale :
    ∃ reading, build (.ofText "/story") { extension := "ink" } firstStory = .ok reading ∧
      let e := bothStories "/story/queue.json" reading
      let now := (e.compileAll false).2.run [.poll 0]
      staleTwice e = (["a.ink", "b.ink"], ["b.ink"]) ∧ now.compileAll false = (.ok [], now) := by
  have timely : firstStory.disk.Timely := MemoryDisk.empty_timely.addFile _ _
  have wanted : ((build (.ofText "/story") { extension := "ink" } firstStory).toOption.map
      fun reading =>
        let e := bothStories "/story/queue.json" reading
        let now := (e.compileAll false).2.run [.poll 0]
        let place (m : Path) := (e.graph.absolute (e.graph.artifactPath m)).parts
        ((staleTwice e, e.isBusy, e.mode, e.pending.order.map Path.text),
          now.isBusy, now.trace.all fun event => !event.spoils,
          decide (e.graph.ArtifactsApart e.graph.paths ∧
            (∀ f ∈ e.graph.masterFiles, ∀ k ∈ e.graph.masterFiles,
              place f.path = place k.path → f.path.parts = k.path.parts) ∧
            (∀ x ∈ e.graph.paths, (e.graph.absolute x).parts ≠
              (Path.ofText "/story/queue.json").parts) ∧
            ∀ f ∈ e.graph.masterFiles,
              (Path.ofText "/story/queue.json").parts ≠ place f.path))) =
      some (((["a.ink", "b.ink"], ["b.ink"]), false, .editing, []), false, true, true) := by
    decide +kernel
  cases built : build (.ofText "/story") { extension := "ink" } firstStory with
  | error cause => simp [built, Except.toOption] at wanted
  | ok reading =>
    simp only [built, Except.toOption, Option.map_some, Option.some.injEq, Prod.mk.injEq,
      decide_eq_true_eq, List.map_eq_nil_iff] at wanted
    obtain ⟨⟨texts, idle, editing, none_waits⟩, rested, clean, apart⟩ := wanted
    obtain ⟨sources, artifacts, clear, elsewhere⟩ := apart
    have settles := (run_compiles_stale timely built (onRequest "/story/queue.json") 0
      secondStory).1 idle editing none_waits ⟨sources, artifacts, ?_⟩ [.poll 0]
      (by simp [Act.IsWait]) rested ?_
    · exact ⟨reading, rfl, texts, settles.2⟩
    · have options : (bothStories "/story/queue.json" reading).options =
          onRequest "/story/queue.json" := Engine.act_options _ _
      intro p kept
      change (bothStories "/story/queue.json" reading).options.statePath = some p at kept
      rw [options] at kept
      obtain rfl := Option.some.inj kept
      exact ⟨clear, fun f hf _ => elsewhere f hf⟩
    · rintro ⟨since, trace, event, hevent, spoils⟩
      have silent := List.all_eq_true.mp clean event (trace ▸ List.mem_append_left _ hevent)
      rw [spoils] at silent
      cases silent

/-- A snapshot in the place of an artifact makes a master look compiled. -/
example :
    let one : Sandbox := { disk := MemoryDisk.empty.addFile (.ofText "/story/a.ink") .empty }
    let options : EngineOptions :=
      { statePath := some (.ofText "/story/b.json"), manualOnly := (· == .ofText "b.ink") }
    ((build (.ofText "/story") { extension := "ink" } one).toOption.map fun reading =>
      let both := reading.storage.mapDisk (·.addFile (.ofText "/story/b.ink") .empty)
      let e := (Engine.fresh reading.graph options reading.storage 0).run
        [.siteChanged both, .sourceChanged (.ofText "b.ink")]
      let now := (e.compileAll false).2.run [.poll 0]
      ((e.graph.staleMasters e.site).1.map Path.text,
        (now.graph.staleMasters now.site).1.map Path.text)) =
      some (["a.ink", "b.ink"], []) := by
  decide +kernel

end Chronicle

end StoryBuild
