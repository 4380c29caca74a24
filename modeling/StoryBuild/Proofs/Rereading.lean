import StoryBuild.Proofs.FileOrder

namespace StoryBuild

namespace MemoryDisk

variable {d : MemoryDisk} (faultless : d.metadataFaults = [])

include faultless

theorem unspent (p : Path) : spendFault p d.metadataFaults = none := by
  rw [faultless]
  rfl

theorem modified_disk (p : Path) : (Storage.modified d p).2 = d := by
  change (d.modified p).2 = d
  unfold modified
  rw [unspent faultless]
  dsimp only
  split <;> rfl

theorem modified_file {p : Path} (file : Storage.isFile d p = true) :
    ∃ time, Storage.modified d p = (.ok time, d) := by
  change (d.contents? p).isSome = true at file
  change ∃ time, d.modified p = (.ok time, d)
  unfold contents? at file
  unfold modified
  rw [unspent faultless]
  dsimp only
  split at file
  next content time found => exact ⟨time, by rw [found]⟩
  next => cases file

end MemoryDisk

namespace FileGraph

variable {g new : FileGraph} {d : MemoryDisk} {f : SourceFile} {p q : Path}

theorem modifiedTwice_file (faultless : d.metadataFaults = []) (file : Storage.isFile d p = true) :
    ∃ time, modifiedTwice d p = (.ok time, d) := by
  obtain ⟨time, read⟩ := MemoryDisk.modified_file faultless file
  exact ⟨time, by rw [modifiedTwice, read]⟩

theorem reparse_disk (faultless : d.metadataFaults = []) : (g.reparse d p).2 = d :=
  MemoryDisk.modified_disk faultless _

theorem report_reparse (g : FileGraph) (d : MemoryDisk) (p : Path) :
    (g.reparse d p).1.mapFiles SourceFile.report = g.mapFiles SourceFile.report := by
  change (g.update p _).mapFiles _ = _
  rw [update, mapFiles_mapFiles]
  congr 1
  funext f
  split <;> rfl

/-- The record of a path after some path is read again. -/
theorem rawAt_reparse (g : FileGraph) (d : MemoryDisk) (p q : Path) :
    (g.reparse d p).1.rawAt q =
      if q.parts = p.parts then
        (g.rawAt q).map fun _ => (g.readIncludes d p).toOption.getD []
      else g.rawAt q := by
  change ((g.mapFiles _).file? q).map _ = _
  rw [file_mapFiles]
  · cases found : g.file? q with
    | none => simp [rawAt, found]
    | some f =>
      obtain ⟨_, same⟩ := file_found found
      rw [rawAt, found, Option.map_some, Option.map_some]
      by_cases mine : q.parts = p.parts
      · have here_ : (f.path == p) = true := Path.beq_iff.mpr (same.trans mine)
        simp [mine, here_]
      · have other : (f.path == p) = false := Path.beq_false_iff.mpr (same ▸ mine)
        simp [mine, other]
  · intro f
    dsimp only
    split <;> rfl

/-- A tracked source that is read again is fresh. -/
theorem reparse_fresh (source : g.HasSource d p) (tracked : g.isTracked p = true) :
    (g.reparse d p).1.Fresh d p := by
  obtain ⟨_, file, is_source⟩ := source
  obtain ⟨content, found⟩ := Option.isSome_iff_exists.mp file
  have disk : (g.reparse d p).1.onDisk d p = some (includesIn content) :=
    onDisk_of_contents is_source found
  have raw : (g.readIncludes d p).toOption.getD [] = includesIn content := by
    unfold MemoryDisk.contents? at found
    split at found
    next content' time stands =>
      rw [Option.some.injEq] at found
      subst found
      change ((d.readText (g.absolute p)).map includesOf).toOption.getD [] = _
      rw [MemoryDisk.readText, stands, includesIn]
      dsimp only
      cases decodeText content' <;> rfl
    next => cases found
  rw [isTracked_eq_isSome] at tracked
  obtain ⟨old, recorded⟩ := Option.isSome_iff_exists.mp tracked
  rw [Fresh, rawAt_reparse, if_pos rfl, recorded, disk, Option.map_some, raw]

theorem reparse_keeps_fresh (other : q.parts ≠ p.parts) (h : g.Fresh d q) :
    (g.reparse d p).1.Fresh d q := by
  rw [Fresh, rawAt_reparse, if_neg other]
  exact h

theorem Tidy.insert (h : g.Tidy) (normal : f.path.IsNormalized)
    (source : g.options.isSource f.path = true) (untracked : g.isTracked f.path = false) :
    (g.insert f).Tidy ∧ ∀ k, k ∈ (g.insert f).files ↔ k = f ∨ k ∈ g.files := by
  have order : InPathOrder (g.insert f).files := insert_inPathOrder h.inPathOrder untracked
  refine ⟨⟨List.pairwise_map.mpr order, ?_⟩, fun _ => mem_insert untracked⟩
  intro p hp
  obtain ⟨k, hk, rfl⟩ := List.mem_map.mp hp
  rcases (mem_insert untracked).mp hk with rfl | hk
  · exact ⟨normal, source⟩
  · exact h.sources _ (List.mem_map_of_mem hk)

theorem Tidy.filter (h : g.Tidy) (keep : SourceFile → Bool) :
    ({ g with files := g.files.filter keep } : FileGraph).Tidy := by
  refine ⟨List.pairwise_map.mpr (h.inPathOrder.filter keep), ?_⟩
  intro p hp
  obtain ⟨k, hk, rfl⟩ := List.mem_map.mp hp
  exact h.sources _ (List.mem_map_of_mem (List.mem_filter.mp hk).1)

/-- Tidy graphs with the same record at a path find the same there. -/
theorem Tidy.file_congr (h : g.Tidy) (h' : new.Tidy) (hp : p.IsNormalized)
    (same : ∀ k : SourceFile, k.path = p → (k ∈ new.files ↔ k ∈ g.files)) :
    new.file? p = g.file? p := by
  refine Option.ext fun k => ?_
  rw [h'.file_eq hp, h.file_eq hp]
  constructor
  · rintro ⟨hk, path⟩
    exact ⟨(same k path).mp hk, path⟩
  · rintro ⟨hk, path⟩
    exact ⟨(same k path).mpr hk, path⟩

/-- Freshness goes by the record of the path. -/
theorem Fresh.congr (h : g.Fresh d p) (file : new.file? p = g.file? p) (root : new.root = g.root)
    (options : new.options = g.options) : new.Fresh d p := by
  rw [Fresh, rawAt, file, onDisk, absolute, root, options]
  exact h

theorem Fresh.of_bare (h : g.Fresh d p)
    (bare : new.mapFiles SourceFile.bare = g.mapFiles SourceFile.bare) : new.Fresh d p := by
  have root : new.root = g.root := (congrArg FileGraph.root bare :)
  have options : new.options = g.options := (congrArg FileGraph.options bare :)
  rw [Fresh, rawAt_of_bare bare, onDisk, absolute, root, options]
  exact h

/-- What is said about a path is kept as long as its record is. -/
theorem keepsReports_of_known (h : g.Tidy) (h' : new.Tidy)
    (known : ∀ f ∈ g.files, ∀ k ∈ new.files, k.path = f.path → k ∈ g.files) :
    g.KeepsReports new := by
  intro p f k before after
  obtain ⟨hf, same⟩ := file_found before
  obtain ⟨hk, same'⟩ := file_found after
  have path := (h'.normal hk).ext (h.normal hf) (same'.trans same.symm)
  rw [h.inPathOrder.unique (known f hf k hk path) hf (by rw [path])]

/-- What a new graph owes to an old one and the disk when some paths are read again. -/
structure Renews (g : FileGraph) (d : MemoryDisk) (new : FileGraph) (renewed : Path → Prop) :
    Prop where
  root : new.root = g.root
  options : new.options = g.options
  tidy : new.Tidy
  fresh : ∀ p : Path, p.IsNormalized → renewed p → new.Fresh d p
  kept : ∀ p : Path, p.IsNormalized → ¬ renewed p → g.Fresh d p → new.Fresh d p
  reports : g.KeepsReports new

theorem KeepsReports.trans_report {next : FileGraph} (h : g.KeepsReports new)
    (report : next.mapFiles SourceFile.report = new.mapFiles SourceFile.report) :
    g.KeepsReports next := by
  intro p f k before after
  have both := file_of_view report (fun _ => rfl) p
  rw [after, Option.map_some] at both
  obtain ⟨j, found, same⟩ := Option.map_eq_some_iff.mp both.symm
  rw [← same]
  exact h p f j before found

/-- A change that leaves records and reports as they are owes nothing more. -/
theorem Renews.congr {renewed : Path → Prop} {next : FileGraph} (h : Renews g d new renewed)
    (bare : next.mapFiles SourceFile.bare = new.mapFiles SourceFile.bare)
    (report : next.mapFiles SourceFile.report = new.mapFiles SourceFile.report) :
    Renews g d next renewed := by
  have root : next.root = new.root := (congrArg FileGraph.root bare :)
  have options : next.options = new.options := (congrArg FileGraph.options bare :)
  exact ⟨root.trans h.root, options.trans h.options, h.tidy.of_report report,
    fun p hp again => (h.fresh p hp again).of_bare bare,
    fun p hp other known => (h.kept p hp other known).of_bare bare,
    h.reports.trans_report report⟩

theorem Renews.relink {renewed : Path → Prop} (h : Renews g d new renewed) :
    Renews g d new.relink renewed :=
  h.congr (bare_relink new) (report_relink new)

theorem reparse_renews (tidy : g.Tidy) (normal : p.IsNormalized)
    (file : Storage.isFile d (g.absolute p) = true) (tracked : g.isTracked p = true) :
    Renews g d (g.reparse d p).1 (· = p) := by
  have source := (tidy.sources p ((tidy.isTracked_iff normal).mp tracked)).2
  have report := report_reparse g d p
  refine ⟨rfl, rfl, tidy.of_report report, ?_, ?_, .of_report report⟩
  · rintro q hq rfl
    exact reparse_fresh ⟨normal, file, source⟩ tracked
  · intro q hq other known
    exact reparse_keeps_fresh (fun parts => other (hq.ext normal parts)) known

theorem insert_renews (tidy : g.Tidy) (normal : p.IsNormalized)
    (file : Storage.isFile d (g.absolute p) = true) (source : g.options.isSource p = true)
    (untracked : g.isTracked p = false) :
    Renews g d ((g.insert { path := p }).reparse d p).1 (· = p) := by
  obtain ⟨tidy', mem⟩ := tidy.insert (f := { path := p }) normal source untracked
  have report := report_reparse (g.insert { path := p }) d p
  have tidy'' := tidy'.of_report report
  refine ⟨rfl, rfl, tidy'', ?_, ?_, ?_⟩
  · rintro q hq rfl
    refine reparse_fresh ⟨normal, file, source⟩ ((tidy'.isTracked_iff normal).mpr ?_)
    exact List.mem_map.mpr ⟨_, (mem _).mpr (.inl rfl), rfl⟩
  · intro q hq other known
    refine reparse_keeps_fresh (fun parts => other (hq.ext normal parts)) ?_
    refine known.congr (tidy.file_congr tidy' hq fun k path => ?_) rfl rfl
    rw [mem]
    refine or_iff_right ?_
    rintro rfl
    exact other path.symm
  · have reports : g.KeepsReports (g.insert { path := p }) := by
      refine keepsReports_of_known tidy tidy' ?_
      intro f hf k hk same
      rcases (mem k).mp hk with rfl | hk
      · exact absurd (by rw [← same]) (not_tracked untracked f hf)
      · exact hk
    exact reports.trans_report report

theorem erase_renews (tidy : g.Tidy) (normal : p.IsNormalized)
    (gone : Storage.isFile d (g.absolute p) = false) : Renews g d (g.erase p) (· = p) := by
  have tidy' := tidy.filter fun f => !(f.path == p)
  refine ⟨rfl, rfl, tidy', ?_, ?_, ?_⟩
  · rintro q hq rfl
    refine fresh_of_none ?_ ?_
    · rw [Bool.eq_false_iff, ne_eq, isTracked_iff]
      rintro ⟨f, hf, same⟩
      have kept := (List.mem_filter.mp hf).2
      rw [Path.beq_iff.mpr same] at kept
      cases kept
    · rw [onDisk_isSome]
      change (_ && Storage.isFile d (g.absolute q)) = false
      rw [gone, Bool.and_false]
  · intro q hq other known
    refine known.congr (tidy.file_congr tidy' hq fun k path => ?_) rfl rfl
    have differs : (k.path == p) = false := by
      rw [path]
      exact Path.beq_false_iff.mpr fun parts => other (hq.ext normal parts)
    change k ∈ g.files.filter _ ↔ _
    rw [List.mem_filter, differs]
    simp
  · exact keepsReports_of_known tidy tidy' fun _ _ k hk _ => (List.mem_filter.mp hk).1

/-- A graph is linked when linking it again tells nothing new. -/
def Linked (g : FileGraph) : Prop :=
  g.mapFiles SourceFile.linkage = (g.mapFiles SourceFile.bare).relink

theorem linked_relink (g : FileGraph) : g.relink.Linked := by
  rw [Linked, linkage_relink, bare_relink]

theorem Linked.of_linkage (h : g.Linked)
    (same : new.mapFiles SourceFile.linkage = g.mapFiles SourceFile.linkage) : new.Linked := by
  rw [Linked, same, bare_of_linkage same]
  exact h

/-- What is read again is what has appeared, changed or vanished. -/
theorem reread_renews (tidy : g.Tidy) (faultless : d.metadataFaults = []) (normal : p.IsNormalized)
    {d' : MemoryDisk} (read : g.reread d p = some (new, d')) : d' = d ∧ Renews g d new (· = p) := by
  cases rereads_of_reread read with
  | changed file tracked => exact ⟨reparse_disk faultless, reparse_renews tidy normal file tracked⟩
  | appeared file untracked source =>
    exact ⟨reparse_disk faultless, insert_renews tidy normal file source untracked⟩
  | vanished gone => exact ⟨rfl, erase_renews tidy normal gone⟩

/-- Nothing is read again where nothing is or was tracked. -/
theorem unread_renews (tidy : g.Tidy) (unread : g.reread d p = none) : Renews g d g (· = p) := by
  have fresh : g.Fresh d p := by
    obtain ⟨untracked, no_source | gone⟩ := untracked_of_unread unread
    · exact fresh_of_none untracked (by rw [onDisk_isSome, no_source, Bool.false_and])
    · exact fresh_of_none untracked (by rw [onDisk_isSome, gone, Bool.and_false])
  refine ⟨rfl, rfl, tidy, ?_, fun _ _ _ known => known, .of_report rfl⟩
  rintro q _ rfl
  exact fresh

/-- A refresh makes its path fresh and leaves all others as they are. -/
theorem refresh_renews (tidy : g.Tidy) (linked : g.Linked) (faultless : d.metadataFaults = [])
    (normal : p.IsNormalized) :
    (g.refresh d p).2.storage = d ∧ (g.refresh d p).2.graph.Linked ∧
      Renews g d (g.refresh d p).2.graph (· = p) := by
  unfold refresh
  cases read : g.reread d p with
  | none => exact ⟨rfl, linked, unread_renews tidy read⟩
  | some state =>
    obtain ⟨disk, renews⟩ := reread_renews tidy faultless normal read
    exact ⟨disk, linked_relink state.1, renews.relink⟩

/-- Importing tracks sources that are on the disk and loses no record. -/
theorem import_spec (faultless : d.metadataFaults = []) {l : List Path} (found : Found)
    (tidy : g.Tidy) (sources : ∀ p ∈ l, g.HasSource d p) :
    ∃ new found', l.foldl importFile (g, d, found) = (new, d, found') ∧ new.root = g.root ∧
      new.options = g.options ∧ new.Tidy ∧ (∀ p, p ∈ new.paths ↔ p ∈ g.paths ∨ p ∈ l) ∧
      ∀ f ∈ g.files, f ∈ new.files := by
  induction l generalizing g found with
  | nil => exact ⟨g, found, rfl, rfl, rfl, tidy, by simp, fun _ hf => hf⟩
  | cons p rest ih =>
    obtain ⟨normal, file, source⟩ := sources p (by simp)
    have others : ∀ q ∈ rest, g.HasSource d q := fun q hq => sources q (by simp [hq])
    rw [List.foldl_cons]
    cases tracked : g.isTracked p with
    | true =>
      have known := (tidy.isTracked_iff normal).mp tracked
      have same : importFile (g, d, found) p = (g, d, found) := by simp [importFile, tracked]
      obtain ⟨new, found', run, root, options, tidy', paths, records⟩ := ih found tidy others
      refine ⟨new, found', by rw [same, run], root, options, tidy', fun q => ?_, records⟩
      rw [paths, List.mem_cons]
      constructor
      · rintro (hq | hq)
        · exact .inl hq
        · exact .inr (.inr hq)
      · rintro (hq | rfl | hq)
        · exact .inl hq
        · exact .inl known
        · exact .inr hq
    | false =>
      obtain ⟨time, read⟩ := modifiedTwice_file faultless file
      let f : SourceFile :=
        { path := p, modified := some time, artifact := g.artifactOnDisk d p }
      have added : importFile (g, d, found) p =
          (g.insert f, d, { found with added := found.added ++ [p] }) := by
        simp [importFile, tracked, read, f]
      obtain ⟨tidy_f, mem⟩ := tidy.insert (f := f) normal source tracked
      obtain ⟨new, found', run, root, options, tidy', paths, records⟩ := ih _ tidy_f others
      refine ⟨new, found', by rw [added, run], root, options, tidy', fun q => ?_, fun k hk => ?_⟩
      · have here_ : q ∈ (g.insert f).paths ↔ q = p ∨ q ∈ g.paths := by
          simp only [FileGraph.paths, List.mem_map, mem]
          constructor
          · rintro ⟨k, rfl | hk, rfl⟩
            · exact .inl rfl
            · exact .inr ⟨k, hk, rfl⟩
          · rintro (rfl | ⟨k, hk, rfl⟩)
            · exact ⟨f, .inl rfl, rfl⟩
            · exact ⟨k, .inr hk, rfl⟩
        rw [paths, here_, List.mem_cons, or_comm (a := q = p), or_assoc]
      · exact records k ((mem k).mpr (.inr hk))

theorem isTracked_of_report (same : new.mapFiles SourceFile.report = g.mapFiles SourceFile.report)
    (p : Path) : new.isTracked p = g.isTracked p := by
  have path : ∀ f : SourceFile, f.report.path = f.path := fun _ => rfl
  rw [← isTracked_mapFiles new path, same, isTracked_mapFiles g path]

/-- Reading many tracked sources again makes each of them fresh. -/
theorem reparseAll_spec (faultless : d.metadataFaults = []) {l : List Path}
    (sources : ∀ p ∈ l, g.HasSource d p ∧ g.isTracked p = true) :
    (g.reparseAll d l).2 = d ∧
      (g.reparseAll d l).1.mapFiles SourceFile.report = g.mapFiles SourceFile.report ∧
      ∀ p : Path, p.IsNormalized → p ∈ l ∨ g.Fresh d p → (g.reparseAll d l).1.Fresh d p := by
  induction l generalizing g with
  | nil => exact ⟨rfl, rfl, fun p _ h => h.resolve_left (by simp)⟩
  | cons p rest ih =>
    obtain ⟨source, tracked⟩ := sources p (by simp)
    have report := report_reparse g d p
    have unfolded : g.reparseAll d (p :: rest) = (g.reparse d p).1.reparseAll d rest := by
      have disk : g.reparse d p = ((g.reparse d p).1, d) := Prod.ext rfl (reparse_disk faultless)
      rw [reparseAll, List.foldl_cons]
      dsimp only
      rw [disk]
      rfl
    obtain ⟨disk, reports, fresh⟩ := ih (g := (g.reparse d p).1) fun q hq => by
      obtain ⟨source_q, tracked_q⟩ := sources q (by simp [hq])
      exact ⟨source_q, (isTracked_of_report report q).trans tracked_q⟩
    rw [unfolded]
    refine ⟨disk, reports.trans report, fun q hq known => fresh q hq ?_⟩
    by_cases same : q = p
    · rw [same]
      exact .inr (reparse_fresh source tracked)
    · refine known.imp (fun hq => (List.mem_cons.mp hq).resolve_left same) fun fresh_q => ?_
      exact reparse_keeps_fresh (fun parts => same (hq.ext source.1 parts)) fresh_q

/-- A rebuild goes on from its discovery. -/
theorem rebuild_of_discover {σ : Type} [Storage σ] {s : σ} {state : FileGraph × σ × Found}
    (found : (g.prune s).discover s = .ok state) :
    (g.rebuild s).1 = none ∧
      (g.rebuild s).2.graph = (state.1.reparseAll state.2.1 state.1.paths).1.relink ∧
      (g.rebuild s).2.storage = (state.1.reparseAll state.2.1 state.1.paths).2 := by
  unfold rebuild
  dsimp only
  rw [found]
  exact ⟨rfl, rfl, rfl⟩

/-- The first half of a rebuild tracks the sources that are on the disk, and keeps the records of
those that were tracked. -/
theorem discover_spec (tidy : g.Tidy) (order : MemoryDisk.InOrder g.root.parts d.entries)
    (root : Storage.isDir d g.root = true) (faultless : d.metadataFaults = []) :
    ∃ new found, (g.prune d).discover d = .ok (new, d, found) ∧ new.root = g.root ∧
      new.options = g.options ∧ new.Tidy ∧ (∀ p, p ∈ new.paths ↔ g.HasSource d p) ∧
      ∀ f ∈ g.files, Storage.isFile d (g.absolute f.path) = true → f ∈ new.files := by
  have kept : (g.prune d).Tidy := tidy.filter _
  obtain ⟨listing, scanned, sources⟩ := @scan_spec (g.prune d) d order root
  obtain ⟨new, found, run, new_root, new_options, tidy_new, paths, records⟩ :=
    import_spec faultless {} kept fun p hp => (sources p).mp hp
  refine ⟨new, found, ?_, new_root, new_options, tidy_new, fun p => ?_, ?_⟩
  · rw [discover, scanned, ← run]
    rfl
  · rw [paths, sources]
    refine or_iff_right_of_imp fun hp => ?_
    obtain ⟨f, hf, rfl⟩ := List.mem_map.mp hp
    obtain ⟨normal, source⟩ := kept.sources _ hp
    exact ⟨normal, (List.mem_filter.mp hf).2, source⟩
  · exact fun f hf file => records f (List.mem_filter.mpr ⟨hf, file⟩)

/-- A rebuild succeeds and makes all paths fresh. -/
theorem rebuild_renews (tidy : g.Tidy) (order : MemoryDisk.InOrder g.root.parts d.entries)
    (root : Storage.isDir d g.root = true) (faultless : d.metadataFaults = []) :
    (g.rebuild d).1 = none ∧ (g.rebuild d).2.storage = d ∧ (g.rebuild d).2.graph.Linked ∧
      Renews g d (g.rebuild d).2.graph fun _ => True := by
  obtain ⟨new, found, discovered, new_root, new_options, tidy_new, tracked, records⟩ :=
    discover_spec tidy order root faultless
  have has_source {p : Path} : new.HasSource d p ↔ g.HasSource d p := by
    rw [HasSource, HasSource, absolute, absolute, new_root, new_options]
  have sources : ∀ p ∈ new.paths, new.HasSource d p ∧ new.isTracked p = true := by
    intro p hp
    have source := (tracked p).mp hp
    exact ⟨has_source.mpr source, (tidy_new.isTracked_iff source.1).mpr hp⟩
  obtain ⟨disk, report, fresh⟩ := reparseAll_spec faultless sources
  obtain ⟨succeeds, graph, storage⟩ := rebuild_of_discover discovered
  rw [graph, storage]
  refine ⟨succeeds, disk, linked_relink _, Renews.relink ?_⟩
  have root' : (new.reparseAll d new.paths).1.root = new.root := (congrArg FileGraph.root report :)
  have options' : (new.reparseAll d new.paths).1.options = new.options :=
    (congrArg FileGraph.options report :)
  refine ⟨root'.trans new_root, options'.trans new_options, tidy_new.of_report report, ?_,
    fun _ _ none_ => absurd trivial none_, ?_⟩
  · intro p hp _
    by_cases here_ : p ∈ new.paths
    · exact fresh p hp (.inl here_)
    · refine fresh p hp (.inr (fresh_of_none ?_ ?_))
      · rw [Bool.eq_false_iff, ne_eq, tidy_new.isTracked_iff hp]
        exact here_
      · rw [onDisk_isSome, Bool.eq_false_iff, ne_eq, Bool.and_eq_true]
        rintro ⟨source, file⟩
        exact here_ ((tracked p).mpr (has_source.mp ⟨hp, file, source⟩))
  · refine KeepsReports.trans_report ?_ report
    -- A path that is tracked now is on the disk, so its old record was not pruned.
    refine keepsReports_of_known tidy tidy_new ?_
    intro f hf k hk same
    have file := ((tracked k.path).mp (List.mem_map_of_mem hk)).2.1
    rw [tidy_new.inPathOrder.unique hk (records f hf (same ▸ file)) (by rw [same])]
    exact hf

end FileGraph

end StoryBuild
