import Mathlib.Data.List.Induction
import StoryBuild.Watch
import StoryBuild.Proofs.DiskLayouts
import StoryBuild.Proofs.Looking
import StoryBuild.Proofs.ProjectPaths
import StoryBuild.Proofs.Snapshots

namespace StoryBuild

namespace Path

variable {ps : List Part} {names : List String} {root p x : Path}

/-- The place below a root to which some parts lead that do not leave the root on the way. -/
inductive Roams : List Part → List String → Prop
  | start : Roams [] []
  | here {ps : List Part} {names : List String} (way : Roams ps names) : Roams (ps ++ [.here]) names
  | down {ps : List Part} {names : List String} (way : Roams ps names) (s : String) :
      Roams (ps ++ [.name s]) (names ++ [s])
  | up {ps : List Part} {names : List String} {s : String} (way : Roams ps (names ++ [s])) :
      Roams (ps ++ [.up]) names

/-- Whether a path on the disk leads from a root, up and down below it, to a path of the project. -/
def Spells (root p rel : Path) : Prop :=
  ∃ ps names, p.parts = root.parts ++ ps ∧ Roams ps names ∧ rel.parts = names.map .name

theorem roams_iff : Roams ps names ↔ walk [] ps = some names.reverse := by
  constructor
  · intro roams
    induction roams with
    | start => rfl
    | here _ ih => rw [walk_append, ih]; rfl
    | down _ s ih => rw [walk_append, ih]; simp [walk]
    | up _ ih => rw [walk_append, ih]; simp [walk]
  · intro walked
    induction ps using List.reverseRecOn generalizing names with
    | nil =>
      obtain rfl : names = [] := by simpa [walk] using walked
      exact .start
    | append_singleton ps part ih =>
      obtain ⟨inner, before, last⟩ := Option.bind_eq_some_iff.mp (walk_append [] ps [part] ▸ walked)
      have way : Roams ps inner.reverse := ih (by rw [before, List.reverse_reverse])
      cases part with
      | root => cases inner <;> simp [walk] at last
      | here =>
        obtain rfl : inner = names.reverse := by simpa [walk] using last
        exact .here (by simpa using way)
      | up =>
        cases inner with
        | nil => simp [walk] at last
        | cons s inner =>
          obtain rfl : inner = names.reverse := by simpa [walk] using last
          exact .up (by simpa using way)
      | name s =>
        have names_eq : s :: inner = names.reverse := by simpa [walk] using last
        have same : names = inner.reverse ++ [s] := by
          rw [← List.reverse_reverse names, ← names_eq, List.reverse_cons]
        exact same ▸ .down way s

/-- The watcher finds the normalized path that a path below the root spells, and no other. -/
theorem locateBelow_eq_some : locateBelow root p = some x ↔ x.IsNormalized ∧ root.Spells p x := by
  rw [locateBelow, Option.bind_eq_some_iff]
  constructor
  · rintro ⟨q, below, meant⟩
    obtain ⟨rest, behind, rfl⟩ := stripPrefix_eq_some.mp below
    obtain ⟨found, walked, -, rfl⟩ := normalize_eq_some.mp meant
    have valid := names_of_walk walked
    rw [ofParts_behind behind] at walked
    exact ⟨normalize_normalized meant, rest, found.reverse, behind,
      roams_iff.mpr (by rw [walked, List.reverse_reverse]), ofNames_parts valid⟩
  · rintro ⟨normal, rest, names, behind, roams, parts⟩
    have walked : walk [] (ofParts rest).parts = some names.reverse := by
      rw [ofParts_behind behind, roams_iff.mp roams]
    have some_ : names ≠ [] := by
      rintro rfl
      exact normal.isNormal.1 parts
    have valid : ∀ s ∈ names, IsName s := List.reverse_reverse names ▸ names_of_walk walked
    have same : x = ofNames names := normal.ext (isNormalized_ofNames some_ valid)
      (parts.trans (ofNames_parts valid).symm)
    exact ⟨_, stripPrefix_eq_some.mpr ⟨rest, behind, rfl⟩,
      normalize_eq_some.mpr ⟨_, walked, by simpa using some_, by rw [same, List.reverse_reverse]⟩⟩

/-- A normalized path is spelled by itself, put behind the root. -/
theorem IsNormalized.spelled (h : x.IsNormalized) (root : Path) : root.Spells (root.join x) x := by
  obtain ⟨names, -, valid, rfl⟩ := h.names
  refine ⟨names.map .name, names, Path.join_parts root valid, ?_, ofNames_parts valid⟩
  rw [roams_iff, walk_names, List.append_nil]

/-- A path on the disk spells no two paths. -/
theorem Spells.unique {y : Path} (h : root.Spells p x) (h' : root.Spells p y) :
    x.parts = y.parts := by
  obtain ⟨ps, names, behind, roams, parts⟩ := h
  obtain ⟨ps', names', behind', roams', parts'⟩ := h'
  obtain rfl : ps = ps' := List.append_cancel_left (behind.symm.trans behind')
  have same := (roams_iff.mp roams).symm.trans (roams_iff.mp roams')
  rw [Option.some.injEq, List.reverse_inj] at same
  rw [parts, parts', same]

end Path

section Told

variable {root p x rel : Path} {options : GraphOptions} {ps out : List Path}

theorem mem_insertPath (alone : ∀ q ∈ out, q.parts = p.parts → q = p) :
    x ∈ insertPath p out ↔ x = p ∨ x ∈ out := by
  induction out with
  | nil => simp [insertPath]
  | cons q rest ih =>
    unfold insertPath
    split
    next same =>
      obtain rfl := alone q List.mem_cons_self (Path.beq_iff.mp same).symm
      rw [List.mem_cons]
      exact (or_iff_right_of_imp .inl).symm
    next =>
      split
      next => exact List.mem_cons
      next =>
        rw [List.mem_cons, ih fun y hy => alone y (List.mem_cons_of_mem _ hy), List.mem_cons]
        exact or_left_comm

theorem insertPath_order (alone : ∀ q ∈ out, q.parts = p.parts → q = p)
    (h : out.Pairwise fun p q => p.before q = true) :
    (insertPath p out).Pairwise fun p q => p.before q = true := by
  induction out with
  | nil => exact List.pairwise_singleton _ _
  | cons q rest ih =>
    obtain ⟨first, later⟩ := List.pairwise_cons.mp h
    have alone' : ∀ y ∈ rest, y.parts = p.parts → y = p :=
      fun y hy => alone y (List.mem_cons_of_mem _ hy)
    unfold insertPath
    split
    next => exact h
    next other =>
      split
      next front =>
        refine List.pairwise_cons.mpr ⟨List.forall_mem_cons.mpr ⟨front, fun y hy => ?_⟩, h⟩
        exact Path.before_trans front (first y hy)
      next behind =>
        refine List.pairwise_cons.mpr ⟨fun y hy => ?_, ih alone' later⟩
        rcases (mem_insertPath alone').mp hy with rfl | hy
        · exact Path.before_total (Bool.eq_false_iff.mpr behind)
            (Path.beq_false_iff.mp (Bool.eq_false_iff.mpr other))
        · exact first y hy

/-- Normalized paths that are put in their places one after the other are in order, each once. -/
theorem insertAll_spec (normal : ∀ p ∈ ps, p.IsNormalized) (known : ∀ p ∈ out, p.IsNormalized)
    (order : out.Pairwise fun p q => p.before q = true) :
    (ps.foldl (fun out p => insertPath p out) out).Pairwise (fun p q => p.before q = true) ∧
      ∀ x, x ∈ ps.foldl (fun out p => insertPath p out) out ↔ x ∈ ps ∨ x ∈ out := by
  induction ps generalizing out with
  | nil => exact ⟨order, by simp⟩
  | cons p rest ih =>
    obtain ⟨mine, others⟩ := List.forall_mem_cons.mp normal
    have alone : ∀ q ∈ out, q.parts = p.parts → q = p := fun q hq => (known q hq).ext mine
    have known' : ∀ q ∈ insertPath p out, q.IsNormalized := by
      intro q hq
      rcases (mem_insertPath alone).mp hq with rfl | hq
      · exact mine
      · exact known q hq
    obtain ⟨sorted, mem⟩ := ih others known' (insertPath_order alone order)
    refine ⟨sorted, fun x => (mem x).trans ?_⟩
    rw [mem_insertPath alone, List.mem_cons, or_left_comm, or_assoc]

/-- The watcher tells the sources that the paths of an event spell, in order and each once. -/
theorem changedSources_spec (root : Path) (options : GraphOptions) (paths : List Path) :
    (changedSources (locateBelow root) options .change paths).Pairwise
        (fun p q => p.before q = true) ∧
      ∀ x, x ∈ changedSources (locateBelow root) options .change paths ↔
        x.IsNormalized ∧ options.isSource x = true ∧ ∃ p ∈ paths, root.Spells p x := by
  have seen (x : Path) : x ∈ (paths.filterMap (locateBelow root)).filter options.isSource ↔
      x.IsNormalized ∧ options.isSource x = true ∧ ∃ p ∈ paths, root.Spells p x := by
    simp only [List.mem_filter, List.mem_filterMap, Path.locateBelow_eq_some]
    constructor
    · rintro ⟨⟨p, hp, normal, spells⟩, source⟩
      exact ⟨normal, source, p, hp, spells⟩
    · rintro ⟨normal, source, p, hp, spells⟩
      exact ⟨⟨p, hp, normal, spells⟩, source⟩
  obtain ⟨sorted, mem⟩ :=
    insertAll_spec (fun p hp => ((seen p).mp hp).1) (List.forall_mem_nil _) .nil
  exact ⟨sorted, fun x => (mem x).trans ((or_iff_left List.not_mem_nil).trans (seen x))⟩

/-- A path that spells a source is told by its name. -/
theorem changedSources_single (normal : rel.IsNormalized) (source : options.isSource rel = true)
    (spells : root.Spells p rel) :
    changedSources (locateBelow root) options .change [p] = [rel] := by
  have located : locateBelow root p = some rel := Path.locateBelow_eq_some.mpr ⟨normal, spells⟩
  simp [changedSources, located, source, insertPath]

theorem changedSources_normal {kind : ChangeKind} {paths : List Path}
    (told : x ∈ changedSources (locateBelow root) options kind paths) : x.IsNormalized := by
  cases kind with
  | access => cases told
  | change => exact (((changedSources_spec root options paths).2 x).mp told).1

end Told

namespace Sandbox

/-- Whether a disk came about by changes of a new one. -/
def Made (s : Sandbox) : Prop :=
  ∃ changes, s.disk = MemoryDisk.made changes

theorem Made.change {s s' : Sandbox} (h : s.Made) (c : MemoryDisk.Change)
    (disk : s'.disk = s.disk.change c) : s'.Made := by
  obtain ⟨changes, same⟩ := h
  refine ⟨changes ++ [c], ?_⟩
  rw [disk, same, MemoryDisk.made, MemoryDisk.made, List.foldl_append]
  rfl

theorem Made.modified {s : Sandbox} (h : s.Made) (p : Path) : (Storage.modified s p).2.Made :=
  h.change (.look p) rfl

theorem made_carried : Carried fun (s : Sandbox) _ => s.Made where
  wrote h done := by
    obtain rfl := congrArg Prod.snd done
    exact h.change (.write _ _) rfl
  refused h done := by
    obtain rfl := congrArg Prod.snd done
    exact h.change (.write _ _) rfl
  timed p h := h.modified p
  compiled h how := by cases how <;> exact h
  told h _ := h

end Sandbox

namespace FileGraph

variable {g : FileGraph}

theorem Tidy.refresh {σ : Type} [Storage σ] (h : g.Tidy) (s : σ) {p : Path}
    (normal : p.IsNormalized) : (g.refresh s p).2.graph.Tidy := by
  refine h.of_mem (refresh_inPathOrder h.inPathOrder s p)
    (congrArg FileGraph.options (refresh_place g s p) :) fun q hq => ?_
  exact (refresh_tracks hq).imp_right fun ⟨same, source⟩ => same ▸ ⟨normal, source⟩

theorem Tidy.rebuild (h : g.Tidy) {s : Sandbox} (made : s.Made) :
    (g.rebuild s).2.graph.Tidy := by
  obtain ⟨changes, disk⟩ := made
  refine h.of_mem (rebuild_inPathOrder h.inPathOrder s)
    (congrArg FileGraph.options (rebuild_place g s) :) fun q hq => ?_
  refine (rebuild_tracks hq).imp_right ?_
  rintro ⟨found, scanned, among⟩
  have same : (g.prune s).scan s = g.scan s.disk := scan_congr rfl (fun _ => rfl) (fun _ => rfl) rfl
  have order : ListNames g.root.parts s.disk.entries := by
    rw [disk]
    exact (MemoryDisk.made_named changes).listNames _
  exact scan_normal order (same.symm.trans scanned) q among

end FileGraph

/-- Whether what is told of the disk is told as a watcher tells it: changed files by the names that
it gives to paths on the disk, and disks that came about by changes. -/
def Act.Heard (root : Path) (options : GraphOptions) : Act Sandbox → Prop
  | .sourceChanged p => ∃ kind paths, p ∈ changedSources (locateBelow root) options kind paths
  | .siteChanged site => site.Made
  | _ => True

namespace Engine

variable {root : Path} {options : GraphOptions} {e : Engine Sandbox}

/-- Whether the graph of an engine knows its files by the names that the scan gives them. -/
structure WellNamed (root : Path) (options : GraphOptions) (e : Engine Sandbox) : Prop where
  place : e.graph.place = .empty root options
  tidy : e.graph.Tidy
  made : e.site.Made

theorem act_wellNamed (h : e.WellNamed root options) {a : Act Sandbox}
    (heard : a.Heard root options) : (e.act a).WellNamed root options := by
  have links := Desk.course_links (act_course Rules.free_lenient (e.allows_free a))
  have looked : (e.look a).graph.Tidy := by
    refine look_graph (fun p same => h.tidy.refresh e.site ?_) (h.tidy.rebuild h.made) h.tidy
    subst same
    obtain ⟨kind, paths, told⟩ := heard
    exact changedSources_normal told
  have place : (e.act a).graph.place = (e.look a).graph.place := (congrArg FileGraph.place links :)
  refine ⟨place.trans ((e.look_place a).trans h.place), ?_, ?_⟩
  · exact looked.congr (FileGraph.paths_of_mapFiles links fun _ => rfl)
      (congrArg FileGraph.options place :)
  · exact Sandbox.made_carried.act (fun site same => by rwa [same] at heard) h.made

theorem run_wellNamed {acts : List (Act Sandbox)} (h : e.WellNamed root options)
    (heard : ∀ a ∈ acts, a.Heard root options) : (e.run acts).WellNamed root options :=
  run_preserves (P := (·.WellNamed root options)) (fun a ha _ h => act_wellNamed h (heard a ha)) h

theorem fresh_wellNamed {site : Sandbox} {reading : FileGraph.Reading Sandbox} (made : site.Made)
    (built : FileGraph.build root options site = .ok reading) (settings : EngineOptions)
    (dawn : Nat) :
    (fresh reading.graph settings reading.storage dawn).WellNamed root options := by
  have rebuilt := FileGraph.rebuild_of_build built
  have tidy := (FileGraph.tidy_empty root options).rebuild made
  have place := FileGraph.rebuild_place (FileGraph.empty root options) site
  rw [rebuilt] at tidy place
  exact ⟨place, tidy, FileGraph.build_keeps (fun _ q h => h.modified q) built made⟩

/-- A tracked file is spelled by its own place on the disk, and every path that spells it is told by
its name. -/
theorem WellNamed.known (h : e.WellNamed root options) {f : SourceFile} (hf : f ∈ e.graph.files) :
    f.path.IsNormalized ∧ options.isSource f.path = true ∧
      root.Spells (e.graph.absolute f.path) f.path ∧
      ∀ p, root.Spells p f.path →
        changedSources (locateBelow root) options .change [p] = [f.path] := by
  obtain ⟨normal, source⟩ := h.tidy.sources _ (List.mem_map_of_mem hf)
  have root_eq : e.graph.root = root := (congrArg FileGraph.root h.place :)
  have options_eq : e.graph.options = options := (congrArg FileGraph.options h.place :)
  rw [options_eq] at source
  refine ⟨normal, source, ?_, fun p spells => changedSources_single normal source spells⟩
  rw [FileGraph.absolute, root_eq]
  exact normal.spelled root

/-- No file on the disk is tracked under two names. -/
theorem WellNamed.unique (h : e.WellNamed root options) {f k : SourceFile}
    (hf : f ∈ e.graph.files) (hk : k ∈ e.graph.files) {x : Path}
    (spells : root.Spells (e.graph.absolute f.path) x)
    (spells' : root.Spells (e.graph.absolute k.path) x) : f = k := by
  obtain ⟨-, -, own, -⟩ := h.known hf
  obtain ⟨-, -, own', -⟩ := h.known hk
  exact h.tidy.inPathOrder.unique hf hk ((own.unique spells).trans (own'.unique spells').symm)

/-- The watcher and the scan name files alike. Of the paths of an event the watcher tells the
normalized paths of sources that they spell, in order and each once; a path that goes up and down
below the root to a file that a build tracks is told by the name under which it is tracked. So as
long as only what the watcher tells is refreshed, whatever happens on the disk, the tracked paths
are normalized and in order, a file is told by its own name, and no file on the disk is tracked
under two names. -/
theorem watcher_names_as_scan (root : Path) (options : GraphOptions) :
    let told := changedSources (locateBelow root) options .change
    (∀ paths, (told paths).Pairwise (fun p q => p.before q = true) ∧
      ∀ x, x ∈ told paths ↔
        x.IsNormalized ∧ options.isSource x = true ∧ ∃ p ∈ paths, root.Spells p x) ∧
    ∀ (site : Sandbox) (reading : FileGraph.Reading Sandbox), site.Made →
      FileGraph.build root options site = .ok reading →
      (∀ rel ∈ reading.graph.paths, ∀ p, root.Spells p rel → told [p] = [rel]) ∧
      ∀ (settings : EngineOptions) (dawn : Nat) (acts : List (Act Sandbox)),
        (∀ a ∈ acts, a.Heard root options) →
        let now := ((fresh reading.graph settings reading.storage dawn).run acts).graph
        now.paths.Pairwise (fun p q => p.before q = true) ∧
        (∀ f ∈ now.files, f.path.IsNormalized ∧ options.isSource f.path = true ∧
          root.Spells (now.absolute f.path) f.path ∧
          ∀ p, root.Spells p f.path → told [p] = [f.path]) ∧
        ∀ f ∈ now.files, ∀ k ∈ now.files, ∀ x, root.Spells (now.absolute f.path) x →
          root.Spells (now.absolute k.path) x → f = k := by
  refine ⟨changedSources_spec root options, fun site reading made built => ?_⟩
  have start := fresh_wellNamed made built
  refine ⟨fun rel tracked p spells => ?_, fun settings dawn acts heard => ?_⟩
  · obtain ⟨f, hf, rfl⟩ := List.mem_map.mp tracked
    obtain ⟨-, -, -, told⟩ := (start {} 0).known hf
    exact told p spells
  · have named := run_wellNamed (start settings dawn) heard
    exact ⟨named.tidy.order, fun f hf => named.known hf,
      fun f hf k hk x spells spells' => named.unique hf hk spells spells'⟩

/-- A disk with a story and what is written later. -/
def watchedSite (later : List MemoryDisk.Change) : Sandbox where
  disk := .made (.add (.ofText "/p/main.ink") .empty :: later)

/-- A part of the story is written, and the watcher tells so. -/
def newPartTold : List (Act Sandbox) :=
  [.siteChanged (watchedSite [.add (.ofText "/p/sub/new.ink") .empty]),
    .sourceChanged (.ofText "sub/new.ink")]

/-- Whatever way is taken to the new part, it is told by the name under which it is tracked. -/
theorem new_part_watched :
    ∃ reading,
      FileGraph.build (.ofText "/p") { extension := "ink" } (watchedSite []) = .ok reading ∧
      let now := ((fresh reading.graph {} reading.storage 0).run newPartTold).graph
      now.paths.map Path.text = ["main.ink", "sub/new.ink"] ∧
      ∀ f ∈ now.files, f.path.text = "sub/new.ink" →
        ∀ p ∈ ["/p/sub/new.ink", "/p//sub/./new.ink", "/p/sub/old/../../sub/new.ink"],
          changedSources (locateBelow (.ofText "/p")) { extension := "ink" } .change [.ofText p] =
            [f.path] := by
  have wanted : ((FileGraph.build (.ofText "/p") { extension := "ink" }
      (watchedSite [])).toOption.map fun reading =>
        ((fresh reading.graph {} reading.storage 0).run newPartTold).graph.paths.map Path.text) =
      some ["main.ink", "sub/new.ink"] := by decide +kernel
  have part (p : String) (ps : List Part)
      (way : (Path.ofText p).parts = (Path.ofText "/p").parts ++ ps)
      (walked : Path.walk [] ps = some ["new.ink", "sub"]) {x : Path}
      (named : x.text = "sub/new.ink") : (Path.ofText "/p").Spells (.ofText p) x := by
    have parts : x.parts = [.name "sub", .name "new.ink"] := by
      rw [x.parts_eq, named]
      decide
    exact ⟨ps, ["sub", "new.ink"], way, Path.roams_iff.mpr walked, parts⟩
  obtain ⟨tells, tracks⟩ := watcher_names_as_scan (.ofText "/p") { extension := "ink" }
  cases built : FileGraph.build (.ofText "/p") { extension := "ink" } (watchedSite []) with
  | error cause => simp [built, Except.toOption] at wanted
  | ok reading =>
    have heard : ∀ a ∈ newPartTold, a.Heard (.ofText "/p") { extension := "ink" } := by
      have told := ((tells [.ofText "/p/sub/new.ink"]).2 (.ofText "sub/new.ink")).mpr
        ⟨rfl, by decide +kernel, _, List.mem_singleton_self _,
          part _ [.name "sub", .name "new.ink"] (by decide) rfl rfl⟩
      exact List.forall_mem_cons.mpr ⟨⟨_, rfl⟩, List.forall_mem_singleton.mpr ⟨_, _, told⟩⟩
    simp only [built, Except.toOption, Option.map_some, Option.some.injEq] at wanted
    obtain ⟨-, known, -⟩ := (tracks _ _ ⟨_, rfl⟩ built).2 {} 0 newPartTold heard
    refine ⟨reading, rfl, wanted, fun f hf named p hp => ?_⟩
    obtain ⟨-, -, -, told⟩ := known f hf
    refine told _ ?_
    simp only [List.mem_cons, List.not_mem_nil, or_false] at hp
    rcases hp with rfl | rfl | rfl
    · exact part _ [.name "sub", .name "new.ink"] (by decide) rfl named
    · exact part _ [.name "sub", .name "new.ink"] (by decide) rfl named
    · exact part _ [.name "sub", .name "old", .up, .up, .name "sub", .name "new.ink"]
        (by decide) rfl named

end Engine

end StoryBuild
