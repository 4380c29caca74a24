import StoryBuild.Proofs.ArtifactTimes
import StoryBuild.Proofs.DiskLayouts
import StoryBuild.Proofs.FileOrder
import StoryBuild.Proofs.Owners
import StoryBuild.Proofs.Scanning

namespace StoryBuild

namespace MemoryDisk

variable {d : MemoryDisk} {p : Path} {a : List Part}

/-- How many of the next readings of a modification time fail. -/
def faultsAt (d : MemoryDisk) (a : List Part) : Nat :=
  (standsAt d.metadataFaults a).getD 0

/-- Whether one of some readings of a modification time, one after another, succeeds. -/
def ReadsWithin : Nat → MemoryDisk → Path → Prop
  | 0, _, _ => False
  | tries + 1, d, p =>
    (d.modified p).1.toOption.isSome = true ∨ ReadsWithin tries (d.modified p).2 p

theorem modified_faulty {n : Nat} (faulty : d.faultsAt p.parts = n + 1) : d.modified p =
    (.error (.noMetadata p), { d with metadataFaults := putAt p n d.metadataFaults }) := by
  unfold faultsAt at faulty
  rw [modified, spendFault, lookup_eq]
  cases found : standsAt d.metadataFaults p.parts with
  | none => simp [found] at faulty
  | some k =>
    rw [found, Option.getD_some] at faulty
    rw [faulty]

theorem modified_firm (firm : d.faultsAt p.parts = 0) :
    (d.modified p).2 = d ∧ (d.modified p).1.toOption = d.timeAt p.parts := by
  refine modified_unspent ?_
  unfold faultsAt at firm
  rw [spendFault, lookup_eq]
  cases found : standsAt d.metadataFaults p.parts with
  | none => rfl
  | some k =>
    rw [found, Option.getD_some] at firm
    rw [firm]

theorem modified_time (d : MemoryDisk) (p : Path) : (d.modified p).1.toOption =
    if d.faultsAt p.parts = 0 then d.timeAt p.parts else none := by
  cases faults : d.faultsAt p.parts with
  | zero => rw [if_pos rfl, (modified_firm faults).2]
  | succ n =>
    rw [modified_faulty faults, if_neg (by simp)]
    rfl

/-- A reading spends one of the failures of its path. -/
theorem faultsAt_modified (d : MemoryDisk) (p : Path) (a : List Part) :
    (d.modified p).2.faultsAt a = if p.parts = a then d.faultsAt a - 1 else d.faultsAt a := by
  cases faults : d.faultsAt p.parts with
  | zero =>
    rw [(modified_firm faults).1]
    split
    next same => rw [← same, faults]
    next => rfl
  | succ n =>
    rw [modified_faulty faults, faultsAt, standsAt_putAt]
    split
    next same =>
      rw [← same, faults]
      rfl
    next => rfl

theorem timeAt_modified (d : MemoryDisk) (p : Path) : (d.modified p).2.timeAt a = d.timeAt a := by
  rw [timeAt, modified_entries, timeAt]

theorem isFile_iff_timeAt : Storage.isFile d p = true ↔ (d.timeAt p.parts).isSome = true := by
  rw [isFile_eq, contentAt, timeAt]
  cases standsAt d.entries p.parts with
  | none => rfl
  | some e => cases e <;> simp [Entry.content?, Entry.time?]

/-- The time of a file is read within some tries if fewer readings fail. -/
theorem readsWithin_iff {tries : Nat} :
    d.ReadsWithin tries p ↔ Storage.isFile d p = true ∧ d.faultsAt p.parts < tries := by
  induction tries generalizing d with
  | zero => simp [ReadsWithin]
  | succ tries ih =>
    rw [ReadsWithin, ih, isFile_iff_timeAt, isFile_iff_timeAt, timeAt_modified, modified_time,
      faultsAt_modified, if_pos rfl]
    cases d.faultsAt p.parts with
    | zero =>
      rw [if_pos rfl]
      exact ⟨fun h => ⟨h.elim id And.left, Nat.succ_pos tries⟩, fun h => .inl h.1⟩
    | succ n => simp

end MemoryDisk

namespace FileGraph

variable {g : FileGraph} {d s t : MemoryDisk} {p : Path} {l : List Path}

open MemoryDisk (faultsAt_modified modified_time timeAt_modified modified_entries)

/-- The second try is made if a failure is left, and then spends another one. -/
theorem modifiedTwice_eq (d : MemoryDisk) (p : Path) : modifiedTwice d p =
    if d.faultsAt p.parts = 0 then d.modified p else (d.modified p).2.modified p := by
  have unfolded : modifiedTwice d p = if (d.modified p).1.toOption.isSome = true then d.modified p
      else (d.modified p).2.modified p := by
    have first : Storage.modified d p = d.modified p := rfl
    rw [modifiedTwice, first]
    rcases d.modified p with ⟨_ | _, _⟩ <;> rfl
  rw [unfolded]
  split
  next read =>
    rw [modified_time] at read
    split at read
    next firm => rw [if_pos firm]
    next => cases read
  next =>
    split
    next firm => rw [(MemoryDisk.modified_firm firm).1]
    next => rfl

theorem modifiedTwice_entries (d : MemoryDisk) (p : Path) :
    (modifiedTwice d p).2.entries = d.entries := by
  rw [modifiedTwice_eq]
  split
  next => exact modified_entries d p
  next => exact (modified_entries _ p).trans (modified_entries d p)

theorem modifiedTwice_time (d : MemoryDisk) (p : Path) : (modifiedTwice d p).1.toOption =
    if d.faultsAt p.parts < 2 then d.timeAt p.parts else none := by
  rw [modifiedTwice_eq]
  split
  next firm => rw [modified_time, if_pos firm, firm, if_pos (by decide)]
  next faulty =>
    rw [modified_time, timeAt_modified, faultsAt_modified, if_pos rfl]
    exact if_congr (by omega) rfl rfl

theorem faultsAt_modifiedTwice (d : MemoryDisk) (p : Path) (a : List Part) :
    (modifiedTwice d p).2.faultsAt a =
      if p.parts = a then d.faultsAt a - 2 else d.faultsAt a := by
  rw [modifiedTwice_eq]
  by_cases same : p.parts = a
  · subst same
    split
    next firm => rw [faultsAt_modified, if_pos rfl, if_pos rfl, firm]
    next => rw [faultsAt_modified, faultsAt_modified, if_pos rfl, if_pos rfl, if_pos rfl]; rfl
  · split <;> simp only [faultsAt_modified, if_neg same]

/-- The record with which a path comes to be tracked, if its time can be read. -/
def imported? (g : FileGraph) (d : MemoryDisk) (p : Path) : Option SourceFile :=
  (modifiedTwice d (g.absolute p)).1.toOption.map fun time =>
    { path := p, modified := some time, artifact := g.artifactOnDisk d p }

theorem imported_path {f : SourceFile} (h : g.imported? d p = some f) : f.path = p := by
  obtain ⟨time, -, rfl⟩ := Option.map_eq_some_iff.mp h
  rfl

theorem imported_isSome : (g.imported? d p).isSome = true ↔
    d.ReadsWithin 2 (g.absolute p) := by
  rw [imported?, Option.isSome_map, modifiedTwice_time, MemoryDisk.readsWithin_iff,
    MemoryDisk.isFile_iff_timeAt]
  split <;> simp_all

/-- The record goes by the entries of the disk and the failures at the path. -/
theorem imported_congr (entries : s.entries = d.entries)
    (faults : s.faultsAt (g.absolute p).parts = d.faultsAt (g.absolute p).parts) :
    g.imported? s p = g.imported? d p := by
  have artifact : g.artifactOnDisk s p = g.artifactOnDisk d p := by
    unfold artifactOnDisk
    dsimp only
    rw [MemoryDisk.isFile_eq, MemoryDisk.isFile_eq, entries]
  have time : s.timeAt (g.absolute p).parts = d.timeAt (g.absolute p).parts := by
    rw [MemoryDisk.timeAt, entries, MemoryDisk.timeAt]
  rw [imported?, imported?, modifiedTwice_time, modifiedTwice_time, artifact, time, faults]

theorem importFile_eq (untracked : g.isTracked p = false) (s : MemoryDisk) (found : Found) :
    ∃ found', importFile (g, s, found) p =
      (((g.imported? s p).elim g fun f => { g with files := insertByPath f g.files }),
        (modifiedTwice s (g.absolute p)).2, found') := by
  have artifact {s' : MemoryDisk} (same : s'.entries = s.entries) :
      g.artifactOnDisk s' p = g.artifactOnDisk s p := by
    unfold artifactOnDisk
    dsimp only
    rw [MemoryDisk.isFile_eq, MemoryDisk.isFile_eq, same]
  have entries := modifiedTwice_entries s (g.absolute p)
  unfold importFile imported?
  dsimp only
  rw [if_neg (by simp [untracked])]
  revert entries
  rcases modifiedTwice s (g.absolute p) with ⟨_ | time, s'⟩
  · exact fun _ => ⟨_, rfl⟩
  · intro entries
    refine ⟨{ found with added := found.added ++ [p] }, ?_⟩
    simp [Except.toOption, FileGraph.insert, artifact entries]

/-- A record behind all others goes to the end. -/
theorem insertByPath_last {f : SourceFile} {files : List SourceFile}
    (behind : ∀ k ∈ files, k.path.before f.path = true) : insertByPath f files = files ++ [f] := by
  induction files with
  | nil => rfl
  | cons k rest ih =>
    have before := behind k (by simp)
    have other : (f.path == k.path) = false :=
      Path.beq_false_iff.mpr (Ne.symm (Path.before_ne before))
    rw [insertByPath, other, Path.before_asymm before, ih fun k hk => behind k (by simp [hk])]
    rfl

/-- Imports in the order of the paths add the records of all paths whose times can be read, and
spend two failures of each path. -/
theorem importAll_eq (sorted : l.Pairwise fun p q => p.before q = true)
    (normal : ∀ p ∈ l, p.IsNormalized) {files : List SourceFile}
    (behind : ∀ f ∈ files, ∀ p ∈ l, f.path.before p = true) (entries : s.entries = d.entries)
    (faults : ∀ p ∈ l, s.faultsAt (g.absolute p).parts = d.faultsAt (g.absolute p).parts)
    (found : Found) :
    ∃ s' found', l.foldl importFile ({ g with files }, s, found) =
        ({ g with files := files ++ l.filterMap (g.imported? d) }, s', found') ∧
      s'.entries = d.entries ∧
      (∀ p ∈ l, s'.faultsAt (g.absolute p).parts = d.faultsAt (g.absolute p).parts - 2) ∧
      ∀ a, (∀ p ∈ l, (g.absolute p).parts ≠ a) → s'.faultsAt a = s.faultsAt a := by
  induction l generalizing files s found with
  | nil => exact ⟨s, found, by simp, entries, by simp, fun _ _ => rfl⟩
  | cons p rest ih =>
    obtain ⟨first, sorted_rest⟩ := List.pairwise_cons.mp sorted
    have here_ := faults p (by simp)
    have untracked : ({ g with files } : FileGraph).isTracked p = false := by
      rw [Bool.eq_false_iff, ne_eq, isTracked_iff]
      rintro ⟨f, hf, same⟩
      exact Path.before_ne (behind f hf p (by simp)) same
    obtain ⟨found₁, run⟩ := importFile_eq untracked s found
    let mine := (g.imported? d p).toList
    have added : importFile ({ g with files }, s, found) p =
        ({ g with files := files ++ mine }, (modifiedTwice s (g.absolute p)).2, found₁) := by
      have record : ({ g with files } : FileGraph).imported? s p = g.imported? d p :=
        imported_congr entries here_
      rw [run, record]
      cases imported : g.imported? d p with
      | none => simp [mine, imported, FileGraph.absolute]
      | some f =>
        have last := insertByPath_last fun k hk =>
          (imported_path imported).symm ▸ behind k hk p (by simp)
        simp [mine, imported, FileGraph.absolute, last]
    have behind' : ∀ f ∈ files ++ mine, ∀ q ∈ rest, f.path.before q = true := by
      intro f hf q hq
      rcases List.mem_append.mp hf with hf | hf
      · exact behind f hf q (by simp [hq])
      · rw [imported_path (Option.mem_toList.mp hf)]
        exact first q hq
    have apart : ∀ q ∈ rest, (g.absolute p).parts ≠ (g.absolute q).parts := by
      intro q hq same
      have one := MemoryDisk.join_injective g.root (normal p (by simp)) (normal q (by simp [hq])) same
      exact Path.before_ne (first q hq) (by rw [one])
    obtain ⟨s', found', rest_run, entries', spent, kept⟩ :=
      ih sorted_rest (fun q hq => normal q (by simp [hq])) behind'
        ((modifiedTwice_entries s _).trans entries)
        (fun q hq => by
          rw [faultsAt_modifiedTwice, if_neg (apart q hq)]
          exact faults q (by simp [hq])) found₁
    refine ⟨s', found', ?_, entries', ?_, ?_⟩
    · rw [List.foldl_cons, added, rest_run, List.append_assoc, List.filterMap_cons]
      cases imported : g.imported? d p <;> simp [mine, imported]
    · intro q hq
      rcases List.mem_cons.mp hq with rfl | hq
      · rw [kept _ fun r hr => Ne.symm (apart r hr), faultsAt_modifiedTwice, if_pos rfl, here_]
      · exact spent q hq
    · intro a other
      rw [kept a fun q hq => other q (by simp [hq]), faultsAt_modifiedTwice,
        if_neg (other p (by simp))]

theorem reparse_options (o : GraphOptions) (entries : t.entries = s.entries)
    (faults : t.faultsAt (g.absolute p).parts = s.faultsAt (g.absolute p).parts) :
    (({ g with options := o } : FileGraph).reparse t p).1 =
      { (g.reparse s p).1 with options := o } := by
  have text : Storage.readText t (g.absolute p) = Storage.readText s (g.absolute p) := by
    change t.readText _ = s.readText _
    rw [MemoryDisk.readText, entries, MemoryDisk.readText]
  have time : (Storage.modified t (g.absolute p)).1.toOption =
      (Storage.modified s (g.absolute p)).1.toOption := by
    change (t.modified _).1.toOption = (s.modified _).1.toOption
    rw [modified_time, modified_time, faults, MemoryDisk.timeAt, entries, MemoryDisk.timeAt]
  simp only [reparse, readIncludes, FileGraph.absolute] at text time ⊢
  rw [text, time]
  rfl

theorem reparseAll_options (o : GraphOptions) (entries : t.entries = s.entries)
    (faults : ∀ p ∈ l, t.faultsAt (g.absolute p).parts = s.faultsAt (g.absolute p).parts) :
    (({ g with options := o } : FileGraph).reparseAll t l).1 =
      { (g.reparseAll s l).1 with options := o } := by
  induction l generalizing g s t with
  | nil => rfl
  | cons p rest ih =>
    have unfolded (g : FileGraph) (u : MemoryDisk) : g.reparseAll u (p :: rest) =
        (g.reparse u p).1.reparseAll (u.modified (g.absolute p)).2 rest := rfl
    rw [unfolded, unfolded, reparse_options o entries (faults p (by simp))]
    refine ih ?_ fun q hq => ?_
    · exact (modified_entries t _).trans (entries.trans (modified_entries s _).symm)
    · have here_ := faults q (by simp [hq])
      change (t.modified (g.absolute p)).2.faultsAt (g.absolute q).parts =
        (s.modified (g.absolute p)).2.faultsAt (g.absolute q).parts
      rw [faultsAt_modified, faultsAt_modified, here_]

theorem walk_options (o : GraphOptions) (next : SourceFile → List Path) (steps : Nat)
    (visited stack : List Path) :
    ({ g with options := o } : FileGraph).walk next steps visited stack =
      g.walk next steps visited stack := by
  induction steps generalizing visited stack with
  | zero => rfl
  | succ steps ih =>
    cases stack with
    | nil => rfl
    | cons p stack => simp only [walk, ih, file?]

theorem relink_options (g : FileGraph) (o : GraphOptions) :
    ({ g with options := o } : FileGraph).relink = { g.relink with options := o } := by
  have reach (g : FileGraph) (next : SourceFile → List Path) (p : Path) :
      ({ g with options := o } : FileGraph).reach next p = g.reach next p := walk_options o next _ _ _
  have masters (g : FileGraph) (p : Path) :
      ({ g with options := o } : FileGraph).mastersOf p = g.mastersOf p := by
    simp only [mastersOf, reach]
  have circle (g : FileGraph) (p : Path) :
      ({ g with options := o } : FileGraph).circleOf p = g.circleOf p := by
    simp only [circleOf, family, reach]
  have owned (g : FileGraph) :
      ({ g with options := o } : FileGraph).owned = g.owned := by
    funext f
    rw [FileGraph.owned, FileGraph.owned, ownershipIssues, ownershipIssues, masters, circle]
  have linked : ({ g with options := o } : FileGraph).resolveAll.withParents =
      { g.resolveAll.withParents with options := o } := rfl
  simp only [relink, rebuildOwnership, linked, owned]
  rfl

/-- The sources that a scan finds stand in the order of their paths, each once. -/
theorem scan_sorted (order : ListNames g.root.parts d.entries)
    (root : Storage.isDir d g.root = true) :
    ∃ l, g.scan d = .ok l ∧ l.Pairwise (fun p q => p.before q = true) ∧
      ∀ p, p ∈ l ↔ g.IsNamed d p := by
  obtain ⟨found, scanned, once, mem⟩ := scan_names order root
  refine ⟨sortPaths found, scanned, sortPaths_strict (once.imp_of_mem fun hp hq other same => ?_),
    fun p => (List.mergeSort_perm found _).mem_iff.trans (mem p)⟩
  exact other (((mem _).mp hp).1.1.ext ((mem _).mp hq).1.1 same)

/-- A graph that tracks the paths of a list whose times can be read. -/
def importing (g : FileGraph) (d : MemoryDisk) (l : List Path) : FileGraph :=
  { g with files := l.filterMap (g.imported? d) }

theorem importing_paths (g : FileGraph) (d : MemoryDisk) (l : List Path) :
    (g.importing d l).paths = l.filter fun p => (g.imported? d p).isSome := by
  rw [FileGraph.paths, importing]
  induction l with
  | nil => rfl
  | cons p rest ih =>
    cases found : g.imported? d p with
    | none => rw [List.filterMap_cons_none found, ih, List.filter_cons_of_neg (by simp [found])]
    | some f =>
      rw [List.filterMap_cons_some found, List.map_cons, ih, imported_path found,
        List.filter_cons_of_pos (by simp [found])]

/-- A build reads and links the sources that a scan finds, as far as their times can be read. -/
theorem build_of_names {root : Path} (options : GraphOptions)
    (order : ListNames root.parts d.entries) (is_dir : Storage.isDir d root = true) :
    ∃ (l : List Path) (s : MemoryDisk) (reading : Reading MemoryDisk),
      build root options d = .ok reading ∧ l.Pairwise (fun p q => p.before q = true) ∧
      (∀ p, p ∈ l ↔ (empty root options).IsNamed d p) ∧ s.entries = d.entries ∧
      (∀ p ∈ l, s.faultsAt (root.join p).parts = d.faultsAt (root.join p).parts - 2) ∧
      reading.graph = (((empty root options).importing d l).reparseAll s
        ((empty root options).importing d l).paths).1.relink := by
  let g := empty root options
  obtain ⟨l, scanned, sorted, mem⟩ := @scan_sorted g d order is_dir
  obtain ⟨s, found, run, entries, faults, -⟩ :=
    @importAll_eq g d d l sorted (fun p hp => ((mem p).mp hp).1.1) [] (by simp) rfl
      (fun _ _ => rfl) {}
  have discovered : (g.prune d).discover d = .ok (g.importing d l, s, found) := by
    have pruned : g.prune d = g := rfl
    rw [pruned, discover, scanned]
    exact congrArg Except.ok run
  obtain ⟨succeeds, graph, -⟩ := rebuild_of_discover discovered
  exact ⟨l, s, _, build_of_rebuild succeeds, sorted, mem, entries, faults, graph⟩

/-- Excluding paths whose times cannot be read changes nothing but the options. -/
theorem importing_excluded {root : Path} (options : GraphOptions) {skipped : Path → Bool}
    (bad : ∀ p, skipped p = true → ¬ d.ReadsWithin 2 (root.join p)) (l : List Path) :
    (empty root { options with excluded := fun p => options.excluded p || skipped p }).importing d
        (l.filter fun p => !skipped p) =
      { (empty root options).importing d l with
        options := { options with excluded := fun p => options.excluded p || skipped p } } := by
  have none_ (p : Path) (skip : skipped p = true) : (empty root options).imported? d p = none := by
    rw [← Option.not_isSome_iff_eq_none, imported_isSome]
    exact bad p skip
  have files : (l.filter fun p => !skipped p).filterMap ((empty root options).imported? d) =
      l.filterMap ((empty root options).imported? d) := by
    induction l with
    | nil => rfl
    | cons p rest ih =>
      cases skip : skipped p with
      | true =>
        rw [List.filter_cons_of_neg (by simp [skip]), ih, List.filterMap_cons_none (none_ p skip)]
      | false =>
        rw [List.filter_cons_of_pos (by simp [skip]), List.filterMap_cons, List.filterMap_cons, ih]
  rw [importing, importing, ← files]
  rfl

section LaidOut

variable {d : MemoryDisk} {files : List Path} {root p : Path} {options : GraphOptions}
  {reading : Reading MemoryDisk} (laid : d.LaidOut files)

include laid

/-- A path at which a file stands is listed if it is the path of a source. -/
theorem isNamed_iff (is_dir : Storage.isDir d root = true)
    (file : Storage.isFile d (root.join p) = true) :
    (empty root options).IsNamed d p ↔ p.IsNormalized ∧ options.isSource p = true := by
  let g := empty root options
  have listed := laid.lists_below (laid.some_parts (MemoryDisk.isDir_eq_true.mp is_dir))
  have of_file : g.IsListed d p ↔ g.IsNamed d p := isListed_of_isFile file
  refine of_file.symm.trans ⟨fun h => ⟨h.1.1, h.1.2.2⟩, fun h => ?_⟩
  have source : g.HasSource d p := ⟨h.1, file, h.2⟩
  exact isListed_of_hasSource listed source

variable (is_dir : Storage.isDir d root = true) (built : build root options d = .ok reading)

include is_dir built

/-- A build tracks the sources below its root whose times can be read within two tries. -/
theorem mem_built_paths : p ∈ reading.graph.paths ↔
    p.IsNormalized ∧ Storage.isFile d (root.join p) = true ∧ options.isSource p = true ∧
      d.ReadsWithin 2 (root.join p) := by
  obtain ⟨l, s, reading', built', -, mem, -, -, graph⟩ :=
    build_of_names options (laid.shelved.names.listNames root.parts) is_dir
  obtain rfl : reading' = reading := Except.ok.inj (built'.symm.trans built)
  have reads : ((empty root options).imported? d p).isSome = true ↔ d.ReadsWithin 2 (root.join p) :=
    imported_isSome
  rw [graph, relink_paths, reparseAll_paths, importing_paths, List.mem_filter, mem, reads]
  constructor
  · rintro ⟨source, read⟩
    have file := (MemoryDisk.readsWithin_iff.mp read).1
    obtain ⟨normal, is_source⟩ := (isNamed_iff laid is_dir file).mp source
    exact ⟨normal, file, is_source, read⟩
  · rintro ⟨normal, file, is_source, read⟩
    exact ⟨(isNamed_iff laid is_dir file).mpr ⟨normal, is_source⟩, read⟩

theorem built_paths_sorted : reading.graph.paths.Pairwise fun p q => p.before q = true := by
  obtain ⟨l, s, reading', built', sorted, -, -, -, graph⟩ :=
    build_of_names options (laid.shelved.names.listNames root.parts) is_dir
  obtain rfl : reading' = reading := Except.ok.inj (built'.symm.trans built)
  rw [graph, relink_paths, reparseAll_paths, importing_paths]
  exact sorted.filter _

/-- A build without paths whose times cannot be read gives the same records. -/
theorem built_without {skipped : Path → Bool}
    (bad : ∀ p, skipped p = true → ¬ d.ReadsWithin 2 (root.join p)) :
    ∃ without,
      build root { options with excluded := fun p => options.excluded p || skipped p } d =
        .ok without ∧ without.graph.files = reading.graph.files := by
  have order := laid.shelved.names.listNames root.parts
  obtain ⟨l, s, reading', built', sorted, mem, entries, faults, graph⟩ :=
    build_of_names options order is_dir
  obtain rfl : reading' = reading := Except.ok.inj (built'.symm.trans built)
  obtain ⟨l', s', without, built_without, sorted', mem', entries', faults', graph'⟩ :=
    build_of_names { options with excluded := fun p => options.excluded p || skipped p } order
      is_dir
  have less : l' = l.filter fun p => !skipped p := by
    refine sorted_ext sorted' (sorted.filter _) fun p => ?_
    rw [List.mem_filter, mem, mem']
    simp only [IsNamed, empty, GraphOptions.isSource, Bool.not_or, Bool.and_eq_true]
    tauto
  let tracked := (empty root options).importing d l
  -- Both discoveries spend the same failures of the paths that come to be tracked.
  have spent : ∀ p ∈ tracked.paths,
      s'.faultsAt (tracked.absolute p).parts = s.faultsAt (tracked.absolute p).parts := by
    intro p hp
    have hp : p ∈ l ∧ d.ReadsWithin 2 (root.join p) := by
      rwa [importing_paths, List.mem_filter, imported_isSome] at hp
    have kept : p ∈ l' := by
      rw [less, List.mem_filter, Bool.not_eq_true']
      exact ⟨hp.1, Bool.eq_false_iff.mpr fun skip => bad p skip hp.2⟩
    exact (faults' p kept).trans (faults p hp.1).symm
  have reread := reparseAll_options (g := tracked)
    { options with excluded := fun p => options.excluded p || skipped p }
    (entries'.trans entries.symm) spent
  have relinked := (congrArg relink reread).trans (relink_options _ _)
  rw [less, importing_excluded options bad] at graph'
  refine ⟨without, built_without, ?_⟩
  rw [graph', graph]
  exact (congrArg FileGraph.files relinked :)

end LaidOut

open MemoryDisk (made filesOf)

/-- A build tracks the files below its root that are sources and whose times can be read within two
tries, each once and in the order of the paths. The sources that it skips might as well be
excluded. Below the root is what names alone lead to; a path that steps up again leads elsewhere. -/
theorem build_tracks {changes : List MemoryDisk.Change} {root : Path} (options : GraphOptions)
    (apart : Path.KeepApart (filesOf changes))
    (is_dir : Storage.isDir (made changes) root = true) :
    ∃ reading, build root options (made changes) = .ok reading ∧
      (∀ p, p ∈ reading.graph.paths ↔
        p.IsNormalized ∧ Storage.isFile (made changes) (root.join p) = true ∧
          options.isSource p = true ∧ (made changes).ReadsWithin 2 (root.join p)) ∧
      reading.graph.paths.Pairwise (fun p q => p.before q = true) ∧
      ∀ skipped : Path → Bool,
        (∀ p, skipped p = true → ¬ (made changes).ReadsWithin 2 (root.join p)) →
        ∃ without, build root
            { options with excluded := fun p => options.excluded p || skipped p }
            (made changes) = .ok without ∧
          without.graph.files = reading.graph.files := by
  have laid := MemoryDisk.made_laidOut apart
  obtain ⟨-, -, reading, built, -⟩ :=
    build_of_names options (laid.shelved.names.listNames root.parts) is_dir
  exact ⟨reading, built, fun p => mem_built_paths laid is_dir built,
    built_paths_sorted laid is_dir built, fun skipped bad => built_without laid is_dir built bad⟩

/-- Files all over a disk. One is removed again, one cannot be imported, one only at a second try. -/
def scattered : List MemoryDisk.Change :=
  [.add (.ofText "/p/main.ink") "INCLUDE sub/part.INK\nINCLUDE broken.ink\n".toUTF8,
    .write (.ofText "/p/sub/part.INK") "".toUTF8, .add (.ofText "/p/.git/copy.ink") "".toUTF8,
    .add (.ofText "/p/gone.ink") "".toUTF8, .remove (.ofText "/p/gone.ink"),
    .add (.ofText "/p/broken.ink") "".toUTF8, .failMetadata (.ofText "/p/broken.ink") 2,
    .failMetadata (.ofText "/p/sub/part.INK") 1, .touch (.ofText "/p/main.ink")]

theorem scattered_tracked :
    ∃ reading, build (.ofText "/p") { extension := "ink" } (made scattered) = .ok reading ∧
      Path.ofNames ["main.ink"] ∈ reading.graph.paths ∧
      Path.ofNames ["sub", "part.INK"] ∈ reading.graph.paths ∧
      Path.ofNames ["broken.ink"] ∉ reading.graph.paths ∧
      Path.ofNames [".git", "copy.ink"] ∉ reading.graph.paths ∧
      ∃ without, build (.ofText "/p")
          { extension := "ink", excluded := fun p => p == .ofNames ["broken.ink"] }
          (made scattered) = .ok without ∧
        without.graph.files = reading.graph.files := by
  obtain ⟨reading, built, tracked, -, others⟩ :=
    @build_tracks scattered (.ofText "/p") { extension := "ink" } (by decide +kernel)
      (by decide +kernel)
  have main : (Path.ofNames ["main.ink"]).IsNormalized :=
    Path.isNormalized_ofName ⟨by decide +kernel, by decide +kernel⟩
  have part : (Path.ofNames ["sub", "part.INK"]).IsNormalized :=
    Path.isNormalized_ofNames (by simp) (by
      simp only [List.forall_mem_cons]
      exact ⟨⟨by decide +kernel, by decide +kernel⟩, ⟨by decide +kernel, by decide +kernel⟩, by simp⟩)
  have broken : ∀ p : Path, (p == .ofNames ["broken.ink"]) = true →
      ¬ (made scattered).ReadsWithin 2 ((Path.ofText "/p").join p) := by
    intro p same read
    have faults := (MemoryDisk.readsWithin_iff.mp read).2
    rw [Path.join_congr _ (Path.beq_iff.mp same)] at faults
    exact absurd faults (by decide +kernel)
  obtain ⟨without, built', same⟩ := others _ broken
  refine ⟨reading, built, ?_, ?_, fun mem => ?_, fun mem => ?_, without, ?_, same⟩
  · exact (tracked _).mpr ⟨main, by decide +kernel, by decide +kernel,
      MemoryDisk.readsWithin_iff.mpr (by decide +kernel)⟩
  · exact (tracked _).mpr ⟨part, by decide +kernel, by decide +kernel,
      MemoryDisk.readsWithin_iff.mpr (by decide +kernel)⟩
  · exact broken _ (by decide +kernel) ((tracked _).mp mem).2.2.2
  · exact absurd ((tracked _).mp mem).2.2.1 (by decide +kernel)
  · simpa using built'

end FileGraph

end StoryBuild
