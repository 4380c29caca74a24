import StoryBuild.Compiler.Request
import StoryBuild.Proofs.IncludeEdges
import StoryBuild.Proofs.Outcomes
import StoryBuild.Proofs.Trimming

namespace StoryBuild

theorem includesOf_trimmed {text raw : String} (h : raw ∈ includesOf text) :
    trimText raw = raw := by
  obtain ⟨line, -, named⟩ := List.mem_filterMap.mp h
  unfold includeOfLine at named
  split at named
  next c rest _ =>
    dsimp only at named
    split at named
    next =>
      obtain rfl := Option.some.inj named
      rw [trimText, String.toList_ofList, trim_trim]
    next => cases named
  next => cases named

namespace FileGraph

variable {g new : FileGraph} {f k : SourceFile} {m p q source t : Path} {raw : String}

/-- Whether all includes are recorded without blanks around them. -/
def Trimmed (g : FileGraph) : Prop :=
  ∀ f ∈ g.files, ∀ raw ∈ f.rawIncludes, trimText raw = raw

theorem mem_insertRow {row r : IncludeRow} {table : List IncludeRow} (h : r ∈ insertRow row table) :
    r = row ∨ r ∈ table := by
  induction table with
  | nil => exact .inl (List.mem_singleton.mp h)
  | cons first rest ih =>
    unfold insertRow at h
    split at h
    next =>
      rcases List.mem_cons.mp h with rfl | h
      · exact .inl rfl
      · exact .inr (List.mem_cons_of_mem _ h)
    next =>
      split at h
      next => exact List.mem_cons.mp h
      next =>
        rcases List.mem_cons.mp h with rfl | h
        · exact .inr List.mem_cons_self
        · exact (ih h).imp_right (List.mem_cons_of_mem _)

/-- Every row comes from an include of a tracked file, and says which file that include names. -/
theorem mem_includeMap {row : IncludeRow} (h : row ∈ g.includeMap m) :
    ∃ f ∈ g.files, ∃ raw ∈ f.rawIncludes, ∃ t, f.path.dirOf.resolveInclude raw = some t ∧
      row = ⟨f.path, trimText raw, g.absolute t⟩ := by
  have table (rows table : List IncludeRow) (row : IncludeRow)
      (h : row ∈ rows.foldl (fun table r => insertRow r table) table) :
      row ∈ rows ∨ row ∈ table := by
    induction rows generalizing table with
    | nil => exact .inr h
    | cons r rest ih =>
      rcases ih _ h with later | first
      · exact .inl (List.mem_cons_of_mem r later)
      · refine (mem_insertRow first).imp_left ?_
        rintro rfl
        exact List.mem_cons_self
  obtain ⟨p, -, from_file⟩ := List.mem_flatMap.mp ((table _ [] row h).resolve_right nofun)
  split at from_file
  next f found =>
    obtain ⟨raw, hraw, made⟩ := List.mem_filterMap.mp from_file
    split at made
    next t named =>
      split at made
      next => exact ⟨f, (file_found found).1, raw, hraw, t, named, (Option.some.inj made).symm⟩
      next => cases made
    next => cases made
  next => cases from_file

/-- A table never changes which file an include means. -/
theorem Trimmed.finds (h : g.Trimmed) (m source : Path) (raw : String) :
    resolveFor g.root (g.includeMap m) source raw =
      (source.dirOf.resolveInclude (trimText raw)).map g.root.join := by
  unfold resolveFor
  dsimp only
  split
  next row hit =>
    obtain ⟨f, hf, written, hwritten, t, named, rfl⟩ :=
      mem_includeMap (List.mem_of_find?_eq_some hit)
    have same := List.find?_some hit
    simp only [Bool.and_eq_true, beq_iff_eq, Path.beq_iff] at same
    rw [h f hf written hwritten] at same
    rw [← same.2, Path.resolveInclude_congr (Path.dirOf_congr same.1.symm), named]
    rfl
  next => rfl

/-- What is recorded of the includes: they have no blanks around them, and each edge is named by
one of them. -/
structure Spelled (g : FileGraph) : Prop where
  trimmed : g.Trimmed
  named : ∀ f ∈ g.files, ∀ t ∈ f.includes, ∃ raw ∈ f.rawIncludes,
    f.path.dirOf.resolveInclude raw = some t

theorem Trimmed.of_bare (h : g.Trimmed)
    (same : new.mapFiles SourceFile.bare = g.mapFiles SourceFile.bare) : new.Trimmed := by
  intro f hf
  obtain ⟨k, hk, alike⟩ := mem_of_view same hf
  have raws : k.rawIncludes = f.rawIncludes := (congrArg SourceFile.rawIncludes alike :)
  exact raws ▸ h k hk

theorem mem_of_edgesOf (h : t ∈ g.edgesOf f) :
    ∃ raw ∈ f.rawIncludes, f.path.dirOf.resolveInclude raw = some t := by
  have new (l paths : List Path) (h : t ∈ l.foldl addNew paths) : t ∈ paths ∨ t ∈ l := by
    induction l generalizing paths with
    | nil => exact .inl h
    | cons p rest ih =>
      rcases ih _ h with first | later
      · unfold addNew at first
        split at first
        next => exact .inl first
        next =>
          rcases List.mem_append.mp first with old | here_
          · exact .inl old
          · exact .inr (List.mem_singleton.mp here_ ▸ List.mem_cons_self)
      · exact .inr (List.mem_cons_of_mem p later)
  obtain ⟨raw, hraw, accepted⟩ := List.mem_filterMap.mp ((new _ [] h).resolve_left nofun)
  refine ⟨raw, hraw, ?_⟩
  unfold resolveRaw at accepted
  split at accepted
  next => cases accepted
  next target named =>
    split at accepted
    next => cases accepted
    next =>
      split at accepted
      next => cases accepted
      next =>
        split at accepted
        next => cases accepted
        next => exact named.trans accepted

theorem Trimmed.relink (h : g.Trimmed) : g.relink.Spelled := by
  refine ⟨h.of_bare (bare_relink g), fun f hf t ht => ?_⟩
  rw [((linked_relink g).records hf).1] at ht
  exact mem_of_edgesOf ht

theorem Spelled.of_linkage (h : g.Spelled)
    (links : new.mapFiles SourceFile.linkage = g.mapFiles SourceFile.linkage) : new.Spelled := by
  refine ⟨h.trimmed.of_bare (bare_of_linkage links), fun f hf t ht => ?_⟩
  obtain ⟨k, hk, same⟩ := mem_of_view links hf
  have path : k.path = f.path := (congrArg SourceFile.path same :)
  have raws : k.rawIncludes = f.rawIncludes := (congrArg SourceFile.rawIncludes same :)
  have edges : k.includes = f.includes := (congrArg SourceFile.includes same :)
  rw [← path, ← raws]
  exact h.named k hk t (edges ▸ ht)

theorem Spelled.filter (h : g.Spelled) (keep : SourceFile → Bool) :
    ({ g with files := g.files.filter keep } : FileGraph).Spelled :=
  ⟨fun f hf => h.trimmed f (List.mem_filter.mp hf).1,
    fun f hf => h.named f (List.mem_filter.mp hf).1⟩

theorem Spelled.rebuildOwnership (h : g.Spelled) : g.rebuildOwnership.Spelled := by
  constructor
  all_goals
    intro f hf
    obtain ⟨linked, hl, rfl⟩ := List.mem_map.mp hf
    obtain ⟨k, hk, rfl⟩ := List.mem_map.mp hl
  · exact h.trimmed k hk
  · exact h.named k hk

theorem Spelled.resolveAt (h : g.Spelled) (p : Path) : (g.resolveAt p).Spelled := by
  constructor
  all_goals
    intro f hf
    obtain ⟨k, hk, rfl⟩ := List.mem_map.mp hf
  · have same := h.trimmed k hk
    split
    next => exact same
    next => exact same
  · split
    next => exact fun t ht => mem_of_edgesOf ht
    next => exact h.named k hk

variable {σ : Type} [Storage σ]

theorem Spelled.importAll (h : g.Spelled) (l : List Path) (s : σ) (found : Found) :
    (l.foldl importFile (g, s, found)).1.Spelled := by
  have origin := importAll_origin (g := g) (P := fun _ : σ => True) (fun _ _ => id) l (s := s)
    trivial found
  constructor
  all_goals
    intro f hf
    rcases origin f hf with old | ⟨-, _, _, _, -, -, new⟩
  · exact h.trimmed f old
  · rw [new]
    exact nofun
  · exact h.named f old
  · rw [new]
    exact nofun

theorem Trimmed.reparse (h : g.Trimmed) (s : σ) (p : Path) : (g.reparse s p).1.Trimmed := by
  have read : ∀ raw ∈ (g.readIncludes s p).toOption.getD [], trimText raw = raw := by
    unfold readIncludes
    cases Storage.readText s (g.absolute p) with
    | error => exact nofun
    | ok text => exact fun raw => includesOf_trimmed
  intro f hf
  obtain ⟨k, hk, rfl⟩ := List.mem_map.mp hf
  have old := h k hk
  split
  next => exact read
  next => exact old

theorem Trimmed.reparseAll (h : g.Trimmed) (paths : List Path) (s : σ) :
    (g.reparseAll s paths).1.Trimmed :=
  reparseAll_preserves (M := fun new _ => new.Trimmed) (fun p h => h.reparse _ p) h paths

theorem Spelled.rebuild (h : g.Spelled) (s : σ) : (g.rebuild s).2.graph.Spelled := by
  have kept : (g.prune s).Spelled := h.filter _
  unfold FileGraph.rebuild discover
  dsimp only
  cases (g.prune s).scan s with
  | error cause => exact kept
  | ok paths => exact ((kept.importAll paths s {}).trimmed.reparseAll _ _).relink

theorem Spelled.refresh (h : g.Spelled) (s : σ) (p : Path) :
    (g.refresh s p).2.graph.Spelled := by
  unfold FileGraph.refresh
  cases read : g.reread s p with
  | none => exact h
  | some state =>
    obtain ⟨after, s'⟩ := state
    refine Trimmed.relink ?_
    cases rereads_of_reread read with
    | changed => exact h.trimmed.reparse s p
    | appeared _ untracked =>
      refine Trimmed.reparse (fun f hf => ?_) s p
      rcases (mem_insert (f := { path := p }) untracked).mp hf with rfl | old
      · exact nofun
      · exact h.trimmed f old
    | vanished => exact (h.filter _).trimmed

/-- A graph that the operations on graphs lead to, from the graph that tracks nothing. -/
inductive Made : FileGraph → Prop
  | empty (root : Path) (options : GraphOptions) : Made (.empty root options)
  | discovered {σ : Type} [Storage σ] {g : FileGraph} {s : σ} {state : FileGraph × σ × Found}
      (made : Made g) (done : g.discover s = .ok state) : Made state.1
  | rebuilt {σ : Type} [Storage σ] {g : FileGraph} (made : Made g) (s : σ) :
      Made (g.rebuild s).2.graph
  | refreshed {σ : Type} [Storage σ] {g : FileGraph} (made : Made g) (s : σ) (p : Path) :
      Made (g.refresh s p).2.graph
  | resolved {g : FileGraph} (made : Made g) (p : Path) : Made (g.resolveAt p)
  | owned {g : FileGraph} (made : Made g) : Made g.rebuildOwnership
  | applied {g : FileGraph} (made : Made g) (master : Path) (diagnostics : List Diagnostic)
      (unhandled : List String) (artifact : Option Path) (now : Nat) :
      Made (g.applyOutcome master diagnostics unhandled artifact now)

theorem Made.refreshAll (made : g.Made) (s : σ) (paths : List Path) :
    (paths.foldl (fun g p => (g.refresh s p).2.graph) g).Made := by
  induction paths generalizing g with
  | nil => exact made
  | cons p rest ih => exact ih (made.refreshed s p)

theorem Made.spelled (made : g.Made) : g.Spelled := by
  induction made with
  | empty => exact ⟨nofun, nofun⟩
  | @discovered _ _ g s _ _ done ih =>
    obtain ⟨paths, -, rfl⟩ := discover_ok done
    exact ih.importAll paths s {}
  | rebuilt _ s ih => exact ih.rebuild s
  | refreshed _ s p ih => exact ih.refresh s p
  | resolved _ p ih => exact ih.resolveAt p
  | owned _ ih => exact ih.rebuildOwnership
  | applied _ => exact Spelled.of_linkage ‹_› (linkage_applyOutcome _ _ _ _ _ _)

theorem Made.inPathOrder (made : g.Made) : InPathOrder g.files := by
  induction made with
  | empty => exact .nil
  | @discovered _ _ g s _ _ done ih =>
    obtain ⟨paths, -, rfl⟩ := discover_ok done
    exact importAll_inPathOrder paths ih s {}
  | rebuilt _ s ih => exact rebuild_inPathOrder ih s
  | refreshed _ s p ih => exact refresh_inPathOrder ih s p
  | @resolved g _ p ih =>
    have bare (f : SourceFile) : (g.resolved f).bare = f.bare := rfl
    exact inPathOrder_congr ih (paths_of_mapFiles (view_update _ p bare) fun _ => rfl)
  | owned _ ih => exact rebuildOwnership_inPathOrder _ ih
  | applied _ => exact inPathOrder_of_linkage ‹_› (linkage_applyOutcome _ _ _ _ _ _)

/-- An include that counts is found where its edge leads. -/
theorem Spelled.finds_edges (h : g.Spelled) (hf : f ∈ g.files) (m : Path)
    (same : source.parts = f.path.parts) (x : Path) :
    (∃ raw ∈ f.rawIncludes, f.counts raw = true ∧
      resolveFor g.root (g.includeMap m) source raw = some x) ↔
    x ∈ f.includes.map g.absolute := by
  have finds (raw : String) (hraw : raw ∈ f.rawIncludes) :
      resolveFor g.root (g.includeMap m) source raw =
        (f.path.dirOf.resolveInclude raw).map g.root.join := by
    rw [h.trimmed.finds, h.trimmed f hf raw hraw,
      Path.resolveInclude_congr (Path.dirOf_congr same)]
  constructor
  · rintro ⟨raw, hraw, counts, found⟩
    obtain ⟨t, named, edge⟩ := (Option.any_eq_true _ _).mp counts
    obtain ⟨t', ht', alike⟩ := List.any_eq_true.mp edge
    obtain ⟨raw', -, named'⟩ := h.named f hf t' ht'
    obtain rfl : t' = t := (Path.resolveInclude_normalized named').ext
      (Path.resolveInclude_normalized named) (Path.beq_iff.mp alike)
    rw [finds raw hraw, named] at found
    exact List.mem_map.mpr ⟨t', ht', Option.some.inj found⟩
  · intro hx
    obtain ⟨t, ht, rfl⟩ := List.mem_map.mp hx
    obtain ⟨raw, hraw, named⟩ := h.named f hf t ht
    refine ⟨raw, hraw, ?_, by rw [finds raw hraw, named]; rfl⟩
    rw [SourceFile.counts, named, Option.any_some]
    exact List.any_eq_true.mpr ⟨t, ht, Path.beq_iff.mpr rfl⟩

/-- In every graph that the operations on graphs lead to, the table of a master never changes which
file an include means, whatever file includes it and however it is written. In every file of the
family of the master, the includes that are edges mean exactly the files that the edges lead to;
and if the graph was linked since it was read, those are the includes that linking accepts. -/
theorem Made.compiler_finds_edges (made : g.Made) (m : Path) :
    (∀ source raw, resolveFor g.root (g.includeMap m) source raw =
      (source.dirOf.resolveInclude (trimText raw)).map g.root.join) ∧
    ∀ source ∈ g.family m, ∃ f, g.file? source = some f ∧
      (∀ x, (∃ raw ∈ f.rawIncludes, f.counts raw = true ∧
          resolveFor g.root (g.includeMap m) source raw = some x) ↔
        x ∈ f.includes.map g.absolute) ∧
      (g.Linked → ∀ raw ∈ f.rawIncludes,
        (f.counts raw = true ↔ ∃ t, g.resolveRaw f.path raw = .ok t)) := by
  have spelled := made.spelled
  refine ⟨fun source raw => spelled.trimmed.finds m source raw, fun source hs => ?_⟩
  obtain ⟨f, leads, rfl⟩ := mem_reach.mp hs
  have hf := leads.mem
  refine ⟨f, file_of_mem made.inPathOrder hf, spelled.finds_edges hf m rfl, ?_⟩
  intro linked raw hraw
  rw [linked.counts_iff made.inPathOrder hf hraw]
  simp only [resolveRaw_ok made.inPathOrder]

/-- Two parts of one name that include files of one name. -/
def alikeNames : MemoryDisk :=
  (((MemoryDisk.empty.addFile (.ofText "/story/main.ink")
      "INCLUDE a/part.ink\nINCLUDE b/part.ink".toUTF8).addFile (.ofText "/story/a/part.ink")
      "INCLUDE common.ink\nINCLUDE part.ink".toUTF8).addFile (.ofText "/story/b/part.ink")
      "INCLUDE  common.ink \nINCLUDE ../../far.ink".toUTF8).addFile
    (.ofText "/story/a/common.ink") .empty |>.addFile (.ofText "/story/b/common.ink") .empty

/-- All but the master, which came to be tracked one by one. -/
def alikeParts : FileGraph :=
  ["a/common.ink", "a/part.ink", "b/common.ink", "b/part.ink"].map Path.ofText |>.foldl
    (fun g p => (g.refresh alikeNames p).2.graph)
    (.empty (.ofText "/story") { extension := "ink" })

/-- The whole story. -/
def alikeGraph : FileGraph :=
  (alikeParts.refresh alikeNames (.ofText "main.ink")).2.graph

/-- The file that a compile of their master finds for an include. -/
def alikeFound (source : Path) (raw : String) : Option Path :=
  resolveFor alikeGraph.root (alikeGraph.includeMap (.ofText "main.ink")) source raw

theorem alike_names_found :
    ((alikeGraph.family (.ofText "main.ink")).map Path.text =
          ["main.ink", "a/part.ink", "a/common.ink", "b/part.ink", "b/common.ink"] ∧
        (alikeFound (.ofText "a/part.ink") "common.ink").map Path.text =
          some "/story/a/common.ink" ∧
        (alikeFound (.ofText "b/part.ink") " common.ink").map Path.text =
          some "/story/b/common.ink") ∧
      (∀ source raw, alikeFound source raw =
        (source.dirOf.resolveInclude (trimText raw)).map alikeGraph.root.join) ∧
      ∀ source ∈ alikeGraph.family (.ofText "main.ink"), ∃ f, alikeGraph.file? source = some f ∧
        (∀ x, (∃ raw ∈ f.rawIncludes, f.counts raw = true ∧ alikeFound source raw = some x) ↔
          x ∈ f.includes.map alikeGraph.absolute) ∧
        ∀ raw ∈ f.rawIncludes,
          (f.counts raw = true ↔ ∃ t, alikeGraph.resolveRaw f.path raw = .ok t) := by
  have parts : alikeParts.Made := by
    unfold alikeParts
    exact (Made.empty _ _).refreshAll alikeNames _
  have made : alikeGraph.Made := parts.refreshed alikeNames _
  have linked : alikeGraph.Linked := refresh_linked_of_changed (s := alikeNames) (by decide +kernel)
  obtain ⟨finds, families⟩ := made.compiler_finds_edges (.ofText "main.ink")
  refine ⟨?_, finds, fun source hs => ?_⟩
  · decide +kernel
  · obtain ⟨f, found, edges, accepted⟩ := families source hs
    exact ⟨f, found, edges, accepted linked⟩

end FileGraph

end StoryBuild
