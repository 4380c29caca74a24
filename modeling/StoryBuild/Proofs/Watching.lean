import StoryBuild.Proofs.Tending

namespace StoryBuild

/-- What happens to a watched project: a source changes, which is reported, or the engine is
called. -/
inductive WatchStep where
  | edit (e : Edit)
  | call (a : Act Sandbox)

/-- Whether a call leaves it to the reports to tell what is on the disk. -/
def Act.IsBlind {σ : Type} : Act σ → Prop
  | .sourceChanged _ => False
  | .rebuildGraph => False
  | .rebuildIfRequired => False
  | .siteChanged _ => False
  | _ => True

/-- Whether a step changes no other files than some. -/
def WatchStep.About (files : List Path) : WatchStep → Prop
  | .edit e => e.path ∈ files
  | .call a => a.IsBlind

namespace Engine

variable {e start : Engine Sandbox} {g : FileGraph} {files : List Path} {m : Path}

/-- An engine whose disk was changed behind its back. -/
def edited (e : Engine Sandbox) (ed : Edit) : Engine Sandbox :=
  { e with site := e.site.mapDisk (·.edit e.graph.root ed) }

/-- The engine after one step of watching. -/
def watchStep (e : Engine Sandbox) : WatchStep → Engine Sandbox
  | .edit ed => ((e.edited ed).sourceChanged ed.path).2
  | .call a => e.act a

/-- The engine after many steps. -/
def watch (e : Engine Sandbox) (steps : List WatchStep) : Engine Sandbox :=
  steps.foldl watchStep e

/-- A change makes a file a master and does not report it. -/
def Releases (e : Engine Sandbox) (ed : Edit) (m : Path) : Prop :=
  e.graph.isMaster m = false ∧ (e.watchStep (.edit ed)).graph.isMaster m = true ∧
    ∀ x ∈ ((e.edited ed).sourceChanged ed.path).1, x.parts ≠ m.parts

/-- A change made a file a master and did not report it, and no job was queued for it since. -/
def Released (start : Engine Sandbox) (steps : List WatchStep) (m : Path) : Prop :=
  ∃ front ed back, steps = front ++ .edit ed :: back ∧ (start.watch front).Releases ed m ∧
    Unasked m (start.watch front).trace (start.watch steps).trace

/-- A watched engine between two steps. Every change is to be compiled. -/
structure Watched (g : FileGraph) (files : List Path) (e : Engine Sandbox) : Prop where
  desk : (e.desk .steady true).Apart g files
  order : InPathOrder e.graph.files
  linked : e.graph.Linked
  normal : ∀ p ∈ files, p.IsNormalized
  on : e.options.compileOnChange = true
  automatic : ∀ m, e.options.manualOnly m = false

theorem Watched.course {R : Rules} {e' : Engine Sandbox} (h : e.Watched g files)
    (course : Desk.Course R (e.desk .steady true) (e'.desk .steady true)) :
    e'.Watched g files := by
  have links : e'.graph.mapFiles SourceFile.linkage = e.graph.mapFiles SourceFile.linkage :=
    Desk.course_links course
  have options : e'.options = e.options := Desk.course_options course
  exact ⟨Desk.course_preserves Desk.step_apart course h.desk,
    FileGraph.inPathOrder_of_linkage h.order links, h.linked.of_linkage links, h.normal,
    options ▸ h.on, options ▸ h.automatic⟩

/-- A call that looks at no source looks at nothing new. -/
theorem look_blind (steady : Storage.Steady e.site) {a : Act Sandbox} (blind : a.IsBlind) :
    e.look a = e := by
  cases a with
  | sourceChanged | rebuildGraph | rebuildIfRequired | siteChanged => cases blind
  | compileAll force =>
    unfold look targets
    dsimp only
    split
    next => rfl
    next =>
      dsimp only
      rw [(FileGraph.staleMasters_steady (g := e.graph) steady).1]
  | _ => rfl

/-- An engine that has looked at a change, and not reacted to it yet. -/
def looked (e : Engine Sandbox) (ed : Edit) : Engine Sandbox :=
  (e.edited ed).look (.sourceChanged ed.path)

theorem looked_watched (h : e.Watched g files) {ed : Edit} (among : ed.path ∈ files)
    (apart : (e.looked ed).graph.ArtifactsApart files) :
    (e.looked ed).Watched g files := by
  have timed : e.graph.Timed (e.edited ed).site :=
    h.desk.timed.later (h.desk.timed.timely.edit e.graph.root ed) (MemoryDisk.clock_edit _ ed)
  have sane : ((e.edited ed).desk .steady true).Sane :=
    ⟨h.desk.sane.kept, h.desk.sane.traced, h.desk.sane.valid⟩
  have known : ∀ f ∈ (e.looked ed).graph.files, f.path ∈ files :=
    FileGraph.refresh_dated (P := fun q _ => q ∈ files) h.desk.known among fun _ _ => id
  have timed' : (e.looked ed).graph.Timed (e.looked ed).site := by
    change (e.graph.refresh (e.edited ed).site ed.path).2.graph.Timed
      (e.graph.refresh (e.edited ed).site ed.path).2.storage
    rw [FileGraph.refresh_storage (Sandbox.steady timed.timely)]
    exact timed.refresh ed.path
  refine ⟨⟨look_sane sane (.sourceChanged ed.path), ?_, known, timed', apart, h.desk.jobs,
    h.desk.kept⟩, ?_, ?_, h.normal, h.on, h.automatic⟩
  · exact (FileGraph.refresh_place e.graph _ ed.path).trans h.desk.place
  · exact FileGraph.refresh_inPathOrder h.order _ ed.path
  · exact FileGraph.refresh_linked h.linked _ ed.path

/-- How an engine reacts to a change that it has looked at. -/
theorem edit_course {R : Rules} (lenient : R.Lenient) (e : Engine Sandbox) (ed : Edit) :
    Desk.Course R ((e.looked ed).desk .steady true)
      ((e.watchStep (.edit ed)).desk .steady true) :=
  act_course (e := e.edited ed) (a := .sourceChanged ed.path) lenient trivial

/-- How an engine answers a call that looks at no source. -/
theorem call_course {R : Rules} (lenient : R.Lenient) (h : e.Watched g files) {a : Act Sandbox}
    (blind : a.IsBlind) (allowed : e.Allows R a) :
    Desk.Course R (e.desk .steady true) ((e.watchStep (.call a)).desk .steady true) := by
  have course := act_course lenient allowed
  rwa [look_blind (Sandbox.steady h.desk.timed.timely) blind] at course

theorem watchStep_watched (h : e.Watched g files) {s : WatchStep} (about_ : s.About files)
    (apart : (e.watchStep s).graph.ArtifactsApart files) : (e.watchStep s).Watched g files := by
  cases s with
  | call a => exact h.course (call_course Rules.free_lenient h about_ (e.allows_free a))
  | edit ed =>
    have course := edit_course Rules.free_lenient e ed
    have there := looked_watched h about_ (apart.of_linkage (Desk.course_links course).symm)
    exact there.course course

/-- The traces up to the changes that released a master. -/
def ReleasedAt (start : Engine Sandbox) (steps : List WatchStep) (m : Path) (b : List Event) :
    Prop :=
  ∃ front ed back, steps = front ++ .edit ed :: back ∧ (start.watch front).Releases ed m ∧
    b = (start.watch front).trace

theorem ReleasedAt.more {steps : List WatchStep} {b : List Event}
    (h : start.ReleasedAt steps m b) (s : WatchStep) : start.ReleasedAt (steps ++ [s]) m b := by
  obtain ⟨front, ed, back, rfl, releases, there⟩ := h
  exact ⟨front, ed, back ++ [s], by simp, releases, there⟩

/-- A master waits or is tended. -/
def Tends (start : Engine Sandbox) (steps : List WatchStep) (m : Path) (e : Engine Sandbox) :
    Prop :=
  e.pending.contains m = true ∨
    (e.desk .steady true).Tended m start.trace (start.ReleasedAt steps m)

theorem Tends.more {steps : List WatchStep} (h : start.Tends steps m e) (s : WatchStep) :
    start.Tends (steps ++ [s]) m e :=
  h.imp_right fun tended => tended.mono fun _ released => released.more s

/-- Where a call ends, a master that was tended at its start is so still. -/
theorem Tends.course {steps : List WatchStep} {e' : Engine Sandbox}
    (course : Desk.Course Rules.keeping (e.desk .steady true) (e'.desk .steady true))
    (apart : (e.desk .steady true).Apart g files) (within : start.trace <:+ e.trace)
    (is_master : e'.graph.isMaster m = true) (h : start.Tends steps m e) :
    start.Tends steps m e' := by
  have lasting := Desk.tended_lasting g files m start.trace (start.ReleasedAt steps m)
  have heeded : (e.desk .steady true).Heeded
      (Desk.Tended m start.trace (start.ReleasedAt steps m)) m e.trace :=
    h.elim (fun waits => .waits waits) .job
  exact (lasting.heeded course ⟨apart, within⟩ (List.suffix_refl _)
    (fun moving => absurd rfl moving) heeded).of_master rfl is_master

/-- A master that is not reported stays up to date. -/
theorem looked_current (h : e.Watched g files) {ed : Edit} (among : ed.path ∈ files)
    (known : ∀ f ∈ (e.looked ed).graph.files, f.path ∈ files)
    (was_master : e.graph.isMaster m = true) (is_master : (e.looked ed).graph.isMaster m = true)
    (silent : ∀ x ∈ (e.graph.refresh (e.edited ed).site ed.path).1, x.parts ≠ m.parts)
    (current : e.graph.Current e.site m) : (e.looked ed).graph.Current (e.looked ed).site m := by
  have timely : e.site.disk.Timely := h.desk.timed.timely
  have timely' : (e.edited ed).site.disk.Timely := timely.edit e.graph.root ed
  have times {p : Path} (apart : (e.graph.absolute ed.path).parts ≠ p.parts) :
      Storage.time? (e.edited ed).site p = Storage.time? e.site p := by
    rw [Sandbox.time_sandbox timely, Sandbox.time_sandbox timely']
    exact MemoryDisk.timeAt_edit apart
  have kept : (e.looked ed).graph.Current (e.edited ed).site m := by
    refine FileGraph.refresh_current h.linked h.order is_master silent (fun q same => times ?_)
      (fun q hq other => times ?_) current
    · change (e.graph.absolute ed.path).parts ≠ (e.graph.absolute (e.graph.artifactPath q)).parts
      rw [e.graph.artifact_congr same]
      exact h.desk.masters.master was_master ed.path among
    · -- Two normal paths of one place are the same path.
      obtain ⟨f, leads, path⟩ := FileGraph.mem_reach.mp hq
      have among' : q ∈ files := path ▸ known f leads.mem
      intro same
      exact other (congrArg Path.parts
        (MemoryDisk.join_injective e.graph.root (h.normal _ among) (h.normal _ among') same)).symm
  have storage : (e.looked ed).site = (e.edited ed).site :=
    FileGraph.refresh_storage (Sandbox.steady timely') e.graph ed.path
  rw [storage]
  exact kept

/-- A look at a change asks for nothing. -/
theorem looked_unasked {b : List Event} (ed : Edit) (h : Unasked m b e.trace) :
    Unasked m b (e.looked ed).trace := by
  obtain ⟨graph, site, events, quiet, same⟩ :=
    (e.edited ed).look_desk .steady (.sourceChanged ed.path)
  have trace : (e.looked ed).trace = events ++ e.trace := congrArg Desk.trace same
  rw [trace]
  refine h.append events fun event hevent => ?_
  have := quiet event hevent
  cases event <;> first | rfl | cases this

/-- A master that a change does not report is tended after the look at it, or released by it. -/
theorem looked_tends {steps : List WatchStep} (here_ : start.watch steps = e)
    (h : e.Watched g files) {ed : Edit} (among : ed.path ∈ files)
    (known : ∀ f ∈ (e.looked ed).graph.files, f.path ∈ files)
    (is_master : (e.looked ed).graph.isMaster m = true)
    (silent : ∀ x ∈ ((e.edited ed).sourceChanged ed.path).1, x.parts ≠ m.parts)
    (tends : e.graph.isMaster m = true → start.Tends steps m e) :
    start.Tends (steps ++ [.edit ed]) m (e.looked ed) := by
  by_cases was_master : e.graph.isMaster m = true
  · rcases (tends was_master).more (.edit ed) with waits | tended
    · exact .inl waits
    right
    cases tended with
    | spoilt h =>
      have grown : e.trace <:+ (e.looked ed).trace :=
        (e.edited ed).look_grows (.sourceChanged ed.path)
      exact .spoilt (Since.later h grown)
    | busy held mine => exact .busy held mine
    | current current =>
      rw [sourceChanged_masters] at silent
      exact .current (looked_current h among known was_master is_master silent current)
    | unasked based h => exact .unasked based (looked_unasked ed h)
  · have masters := Desk.course_isMaster (edit_course Rules.free_lenient e ed) m
    have releases : e.Releases ed m :=
      ⟨Bool.not_eq_true _ ▸ was_master, masters.trans is_master, silent⟩
    have based : start.ReleasedAt (steps ++ [.edit ed]) m e.trace :=
      ⟨steps, ed, [], rfl, here_ ▸ releases, by rw [here_]⟩
    exact .inr (.unasked based (looked_unasked ed (.refl m e.trace)))

/-- One step of watching keeps every master tended. -/
theorem watchStep_tends {steps : List WatchStep} {s : WatchStep} (here_ : start.watch steps = e)
    (h : e.Watched g files) (within : start.trace <:+ e.trace) (about_ : s.About files)
    (kept : s ≠ .call .cancelAll) (apart : (e.watchStep s).graph.ArtifactsApart files)
    (tends : ∀ m, e.graph.isMaster m = true → start.Tends steps m e) :
    ∀ m, (e.watchStep s).graph.isMaster m = true →
      start.Tends (steps ++ [s]) m (e.watchStep s) := by
  intro m is_master
  cases s with
  | call a =>
    have allowed : e.Allows Rules.keeping a := by
      refine allows_of (fun _ _ => trivial) ?_
      rintro rfl
      exact absurd rfl kept
    have course := call_course Rules.keeping_lenient h about_ allowed
    have was_master := (Desk.course_isMaster course m).symm.trans is_master
    exact ((tends m was_master).course course h.desk within is_master).more (.call a)
  | edit ed =>
    have course := edit_course Rules.keeping_lenient e ed
    have looked := looked_watched h about_ (apart.of_linkage (Desk.course_links course).symm)
    have grown := within.trans ((e.edited ed).look_grows (.sourceChanged ed.path))
    by_cases reported : ∃ x ∈ ((e.edited ed).sourceChanged ed.path).1, x.parts = m.parts
    · -- The change asks for the master, in whatever spelling.
      obtain ⟨x, affected, spelled⟩ := reported
      have lasting := Desk.tended_lasting g files m start.trace
        (start.ReleasedAt (steps ++ [.edit ed]) m)
      refine (sourceChanged_lasts Rules.keeping_lenient (lasting.congr spelled)
        (e := e.edited ed) ⟨looked.desk, grown⟩ h.order h.on affected (h.automatic x)).imp_left ?_
      intro waits
      obtain ⟨y, hy, path⟩ := Pending.contains_iff.mp waits
      exact Pending.contains_iff.mpr ⟨y, hy, path.trans spelled⟩
    · -- Nothing is asked of the master, but what it had after the look lasts to the end of the call.
      have was_master := (Desk.course_isMaster course m).symm.trans is_master
      have silent := looked_tends here_ h about_ looked.desk.known was_master
        (fun x hx path => reported ⟨x, hx, path⟩) (tends m)
      exact silent.course course looked.desk grown is_master

theorem watch_append (e : Engine Sandbox) (front back : List WatchStep) :
    e.watch (front ++ back) = (e.watch front).watch back :=
  List.foldl_append

theorem watchStep_grows (e : Engine Sandbox) (s : WatchStep) :
    e.trace <:+ (e.watchStep s).trace := by
  cases s with
  | edit ed => exact (e.edited ed).act_grows (.sourceChanged ed.path)
  | call a => exact e.act_grows a

/-- At every stage no file of some lies where the artifact of a master goes. -/
def StaysApart (files : List Path) : Engine Sandbox → List WatchStep → Prop
  | e, [] => e.graph.ArtifactsApart files
  | e, s :: steps => e.graph.ArtifactsApart files ∧ StaysApart files (e.watchStep s) steps

instance decidableStaysApart (files : List Path) : (e : Engine Sandbox) →
    (steps : List WatchStep) → Decidable (StaysApart files e steps)
  | e, [] => inferInstanceAs (Decidable (e.graph.ArtifactsApart files))
  | e, s :: steps =>
    have := decidableStaysApart files (e.watchStep s) steps
    inferInstanceAs <| Decidable <|
      e.graph.ArtifactsApart files ∧ StaysApart files (e.watchStep s) steps

theorem StaysApart.now {steps : List WatchStep} (h : StaysApart files e steps) :
    e.graph.ArtifactsApart files := by
  cases steps with
  | nil => exact h
  | cons => exact h.1

theorem StaysApart.later {front back : List WatchStep} (h : StaysApart files e (front ++ back)) :
    StaysApart files e front ∧ StaysApart files (e.watch front) back := by
  induction front generalizing e with
  | nil => exact ⟨StaysApart.now h, h⟩
  | cons s rest ih => exact ⟨⟨h.1, (ih h.2).1⟩, (ih h.2).2⟩

theorem watch_watched {steps : List WatchStep} (h : e.Watched g files)
    (about_ : ∀ s ∈ steps, s.About files) (apart : StaysApart files e steps) :
    (e.watch steps).Watched g files := by
  induction steps generalizing e with
  | nil => exact h
  | cons s rest ih =>
    exact ih (watchStep_watched h (about_ s List.mem_cons_self) (StaysApart.now apart.2))
      (fun t ht => about_ t (List.mem_cons_of_mem _ ht)) apart.2

/-- What is tended after some steps is tended after more. -/
theorem watch_tends (front back : List WatchStep) (here_ : start.watch front = e)
    (h : e.Watched g files) (within : start.trace <:+ e.trace)
    (about_ : ∀ s ∈ back, s.About files) (kept : .call .cancelAll ∉ back)
    (apart : StaysApart files e back)
    (tends : ∀ m, e.graph.isMaster m = true → start.Tends front m e) :
    ∀ m, (e.watch back).graph.isMaster m = true →
      start.Tends (front ++ back) m (e.watch back) := by
  induction back generalizing front e with
  | nil => rwa [List.append_nil]
  | cons s rest ih =>
    have about_s := about_ s List.mem_cons_self
    have not_cancelled : s ≠ .call .cancelAll := by
      rintro rfl
      exact kept List.mem_cons_self
    have there : start.watch (front ++ [s]) = e.watchStep s := by
      rw [watch_append, here_]
      rfl
    have apart' := StaysApart.now apart.2
    rw [List.append_cons]
    exact ih (front ++ [s]) there (watchStep_watched h about_s apart')
      (within.trans (watchStep_grows e s))
      (fun t ht => about_ t (List.mem_cons_of_mem _ ht))
      (fun cancelled => kept (List.mem_cons_of_mem _ cancelled)) apart.2
      (watchStep_tends here_ h within about_s not_cancelled apart' tends)

/-- A linked graph of files that are not ahead of their clock. All of them are among some, where
the snapshot does not go. -/
structure Settled (files : List Path) (graph : FileGraph) (options : EngineOptions)
    (site : Sandbox) : Prop where
  order : InPathOrder graph.files
  linked : graph.Linked
  known : ∀ f ∈ graph.files, f.path ∈ files
  normal : ∀ p ∈ files, p.IsNormalized
  timed : graph.Timed site
  kept : ∀ p, options.statePath = some p → graph.Clear files p

theorem fresh_watched {graph : FileGraph} {options : EngineOptions} {site : Sandbox}
    (settled : Settled files graph options site) (on : options.compileOnChange = true)
    (automatic : ∀ m, options.manualOnly m = false) (apart : graph.ArtifactsApart files)
    (dawn : Nat) : (fresh graph options site dawn).Watched graph files :=
  ⟨⟨fresh_sane graph options site dawn, rfl, settled.known, settled.timed, apart,
    by simp [desk, fresh], settled.kept⟩, settled.order, settled.linked, settled.normal, on,
    automatic⟩

theorem mem_stale (h : e.Watched g files) {m : Path}
    (stale : m ∈ (e.graph.staleMasters e.site).1) :
    e.graph.isMaster m = true ∧ ¬ e.graph.Current e.site m := by
  obtain ⟨f, hf, rfl, outdated⟩ :=
    ((FileGraph.staleMasters_steady (Sandbox.steady h.desk.timed.timely)).2 m).mp stale
  obtain ⟨tracked, master⟩ := List.mem_filter.mp hf
  have found := FileGraph.file_of_mem h.order tracked
  refine ⟨?_, fun current => outdated (current f found)⟩
  rw [FileGraph.isMaster, found]
  exact master

theorem current_of_none_stale (h : e.Watched g files)
    (none_ : (e.graph.staleMasters e.site).1 = []) {m : Path}
    (is_master : e.graph.isMaster m = true) : e.graph.Current e.site m := by
  intro f found
  rw [FileGraph.isMaster, found] at is_master
  refine Classical.byContradiction fun outdated => ?_
  have stale : f.path ∈ (e.graph.staleMasters e.site).1 :=
    ((FileGraph.staleMasters_steady (Sandbox.steady h.desk.timed.timely)).2 f.path).mpr
      ⟨f, List.mem_filter.mpr ⟨(FileGraph.file_found found).1, is_master⟩, rfl, outdated⟩
  rw [none_] at stale
  cases stale

/-- Sources are changed, every change is reported, and the engine is called in between. If all was
up to date at the start, every batch since gave its artifacts, and nothing is left to do, then the
only masters that may have to be compiled are files that a change made masters without reporting
them, and that were not asked for since. -/
theorem watch_in_sync {graph : FileGraph} {options : EngineOptions} {site : Sandbox} {dawn : Nat}
    {before steps : List WatchStep} (settled : Settled files graph options site)
    (on : options.compileOnChange = true) (automatic : ∀ m, options.manualOnly m = false)
    (about_ : ∀ s ∈ before ++ steps, s.About files) (kept : .call .cancelAll ∉ steps)
    (apart : StaysApart files (fresh graph options site dawn) (before ++ steps)) :
    let start := (fresh graph options site dawn).watch before
    let now := start.watch steps
    (start.graph.staleMasters start.site).1 = [] → ¬ Spoilt start.trace now.trace →
      now.isBusy = false → now.pending.isEmpty = true →
        ∀ m ∈ (now.graph.staleMasters now.site).1, start.Released steps m := by
  intro start now in_sync clean idle nothing_waits m stale
  obtain ⟨apart_before, apart_since⟩ := StaysApart.later apart
  have watched : start.Watched graph files :=
    watch_watched (fresh_watched settled on automatic (StaysApart.now apart) dawn)
      (fun s hs => about_ s (List.mem_append_left _ hs)) apart_before
  have about_since : ∀ s ∈ steps, s.About files := fun s hs => about_ s (List.mem_append_right _ hs)
  have watched' : now.Watched graph files := watch_watched watched about_since apart_since
  have at_start : ∀ m, start.graph.isMaster m = true → start.Tends [] m start :=
    fun m is_master => .inr (.current (current_of_none_stale watched in_sync is_master))
  obtain ⟨is_master, outdated⟩ := mem_stale watched' stale
  have tends : start.Tends steps m now :=
    watch_tends [] steps rfl watched (List.suffix_refl _) about_since kept apart_since at_start m
      is_master
  rcases tends with waits | tended
  · obtain ⟨x, hx, -⟩ := (watched'.desk.sane.valid.same m).mp waits
    have none_ : now.pending.order = [] := List.isEmpty_iff.mp nothing_waits
    exact absurd (none_ ▸ hx : x ∈ []) List.not_mem_nil
  · cases tended with
    | spoilt h => exact absurd h clean
    | @busy j held _ =>
      have none_ : now.jobs = [] ∧ now.abandoned = [] := by simpa [isBusy] using idle
      have held' : j ∈ now.jobs ∨ j ∈ now.abandoned := held
      simp [none_.1, none_.2] at held'
    | current current => exact absurd current outdated
    | unasked based unasked =>
      obtain ⟨front, ed, back, whole, releases, rfl⟩ := based
      exact ⟨front, ed, back, whole, releases, unasked⟩

/-- A master and the part that it includes. -/
def wholeAndPart : FileGraph :=
  FileGraph.relink
    { root := .ofText ""
      options := { extension := "ink" }
      files := [{ path := .ofNames ["main.ink"], rawIncludes := ["part.ink"] },
        { path := .ofNames ["part.ink"] }] }

/-- Their files. -/
def wholeAndPartSite : Sandbox where
  disk := MemoryDisk.empty.edits wholeAndPart.root
    [.write (.ofNames ["main.ink"]) "INCLUDE part.ink".toUTF8,
      .write (.ofNames ["part.ink"]) .empty]

/-- The master is compiled. -/
def compiledOnce : List WatchStep :=
  [.call (.compileAll false), .call (.poll 0)]

/-- It lets go of its part, and is compiled again. -/
def partDropped : List WatchStep :=
  [.edit (.write (.ofNames ["main.ink"]) .empty), .call (.poll 0)]

/-- A part that its master lets go of is a master without an artifact, and nobody is told. -/
theorem dropped_part_stays_behind :
    let start := (fresh wholeAndPart {} wholeAndPartSite 0).watch compiledOnce
    let now := start.watch partDropped
    (start.graph.staleMasters start.site).1 = [] ∧ ¬ Spoilt start.trace now.trace ∧
      now.isBusy = false ∧ now.pending.isEmpty = true ∧
      ∃ m ∈ (now.graph.staleMasters now.site).1, m.text = "part.ink" ∧
        start.Released partDropped m := by
  intro start now
  let files := [Path.ofNames ["main.ink"], Path.ofNames ["part.ink"]]
  have normal (x : String) (name : IsName x) : (Path.ofNames [x]).IsNormalized :=
    Path.isNormalized_ofNames (by simp) (by simpa using name)
  have settled : Settled files wholeAndPart {} wholeAndPartSite := by
    refine ⟨?_, FileGraph.linked_relink _, ?_, ?_, ⟨?_, ?_⟩, nofun⟩
    · unfold InPathOrder
      decide +kernel
    · intro f hf
      have mem : f.path ∈ wholeAndPart.paths := List.mem_map_of_mem hf
      rwa [wholeAndPart, FileGraph.relink_paths] at mem
    · simp only [files, List.forall_mem_cons]
      exact ⟨normal "main.ink" ⟨by decide +kernel, by decide +kernel⟩,
        normal "part.ink" ⟨by decide +kernel, by decide +kernel⟩, nofun⟩
    · exact MemoryDisk.empty_timely.edits _ _
    · have unread : ∀ f ∈ wholeAndPart.files, f.modified = none := by decide +kernel
      intro f hf t there
      rw [unread f hf] at there
      cases there
  have none_stale : (start.graph.staleMasters start.site).1 = [] := by
    have none_ : (start.graph.staleMasters start.site).1.isEmpty = true := by decide +kernel
    exact List.isEmpty_iff.mp none_
  have clean : ¬ Spoilt start.trace now.trace := by
    have none_ : ∀ event ∈ now.trace, event.spoils = false := by decide +kernel
    rintro ⟨since, trace, event, hevent, spoils⟩
    rw [none_ event (trace ▸ List.mem_append_left _ hevent)] at spoils
    cases spoils
  have texts : (now.graph.staleMasters now.site).1.map Path.text = ["part.ink"] := by
    decide +kernel
  have listed : "part.ink" ∈ (now.graph.staleMasters now.site).1.map Path.text := by
    rw [texts]
    exact List.mem_cons_self
  obtain ⟨m, stale, text⟩ := List.mem_map.mp listed
  have idle : now.isBusy = false ∧ now.pending.isEmpty = true := by decide +kernel
  refine ⟨none_stale, clean, idle.1, idle.2, m, stale, text, ?_⟩
  exact watch_in_sync settled rfl (fun _ => rfl)
    (by simp [compiledOnce, partDropped, WatchStep.About, Act.IsBlind, Edit.path, files])
    (by simp [partDropped]) (by decide +kernel) none_stale clean idle.1 idle.2 m stale

end Engine

end StoryBuild
