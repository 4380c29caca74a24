import StoryBuild.Proofs.Reachability
import StoryBuild.Proofs.Rereading

namespace StoryBuild

/-- A record without its links. -/
def SourceFile.own (f : SourceFile) : SourceFile :=
  { f with includes := [], parents := [], masters := [], issues := [] }

namespace FileGraph

variable {g new : FileGraph} {f k : SourceFile} {m p q : Path}

theorem own_relink (g : FileGraph) :
    g.relink.mapFiles SourceFile.own = g.mapFiles SourceFile.own := by
  rw [relink, rebuildOwnership, withParents, resolveAll]
  simp only [mapFiles_mapFiles]
  rfl

theorem mapFiles_congr {change change' : SourceFile → SourceFile}
    (same : ∀ f ∈ g.files, change f = change' f) : g.mapFiles change = g.mapFiles change' := by
  rw [mapFiles, mapFiles, List.map_congr_left same]

theorem Linked.records (h : g.Linked) (hf : f ∈ g.files) :
    f.includes = g.edgesOf f ∧ f.parents = g.parentsOf f.path ∧
      f.masters = g.mastersOf f.path := by
  let res (f : SourceFile) : SourceFile :=
    { f.bare with includes := g.edgesOf f, issues := g.issuesOf f }
  let up (f : SourceFile) : SourceFile :=
    { res f with parents := (g.mapFiles res).parentsOf f.path }
  have resolved : (g.mapFiles SourceFile.bare).resolveAll = g.mapFiles res :=
    resolveAll_mapFiles g (fun _ => rfl) fun _ => rfl
  have linked : (g.mapFiles res).withParents = g.mapFiles up := by
    rw [withParents, mapFiles_mapFiles]
    rfl
  have records : ∀ f ∈ g.files, f.linkage = (g.mapFiles up).owned (up f) := by
    have whole := h
    rw [Linked, relink, rebuildOwnership, resolved, linked, mapFiles_mapFiles] at whole
    exact List.map_inj_left.mp (congrArg FileGraph.files whole)
  have includes : ∀ f ∈ g.files, f.includes = g.edgesOf f :=
    fun f hf => (congrArg SourceFile.includes (records f hf) :)
  have parents : ∀ f ∈ g.files, f.parents = g.parentsOf f.path := by
    intro f hf
    let found (f : SourceFile) : SourceFile := { res f with includes := f.includes }
    have path : ∀ f, (found f).path = f.path := fun _ => rfl
    have same : g.mapFiles res = g.mapFiles found :=
      mapFiles_congr fun k hk => by simp only [res, found, includes k hk]
    have there : f.parents = (g.mapFiles res).parentsOf f.path :=
      (congrArg SourceFile.parents (records f hf) :)
    rw [there, same]
    exact parentsOf_mapFiles g path (fun _ => rfl) f.path
  refine ⟨includes f hf, parents f hf, ?_⟩
  let found (f : SourceFile) : SourceFile := { res f with parents := f.parents }
  have path : ∀ f, (found f).path = f.path := fun _ => rfl
  have same : g.mapFiles up = g.mapFiles found :=
    mapFiles_congr fun k hk => by
      have there : k.parents = (g.mapFiles res).parentsOf k.path :=
        (congrArg SourceFile.parents (records k hk) :)
      simp only [up, found, there]
  have there : f.masters = (g.mapFiles up).mastersOf f.path :=
    (congrArg SourceFile.masters (records f hf) :)
  rw [there, same]
  exact mastersOf_mapFiles g path (fun _ => rfl) f.path

/-- The way to a file, taken backwards. -/
theorem Linked.leads_back (h : g.Linked) (order : InPathOrder g.files)
    (leads : g.Leads SourceFile.includes [] m f) (found : g.file? m = some k) :
    g.Leads SourceFile.parents [] f.path k := by
  induction leads generalizing k with
  | here _ found' =>
    obtain rfl : _ = k := Option.some.inj (found'.symm.trans found)
    exact .here rfl (file_of_mem order (file_found found').1)
  | @there m q first f _ found' edge rest ih =>
    obtain rfl : first = k := Option.some.inj (found'.symm.trans found)
    obtain ⟨j, next⟩ := rest.found
    obtain ⟨hj, path⟩ := file_found next
    obtain ⟨known, -⟩ := file_found found
    refine (ih next).snoc ?_ (file_of_mem order known)
    rw [(h.records hj).2.1, parentsOf]
    refine List.mem_map.mpr ⟨first, List.mem_filter.mpr ⟨known, ?_⟩, rfl⟩
    exact List.any_eq_true.mpr ⟨q, edge, Path.beq_iff.mpr path.symm⟩

/-- Every file of a master's family knows the master. -/
theorem Linked.mem_masters (h : g.Linked) (order : InPathOrder g.files)
    (found : g.file? m = some k) (is_master : k.isMaster = true)
    (leads : g.Leads SourceFile.includes [] m f) : k.path ∈ f.masters := by
  rw [(h.records leads.mem).2.2, mastersOf]
  refine List.mem_map.mpr ⟨k, List.mem_filter.mpr ⟨(file_found found).1, ?_⟩, rfl⟩
  have above : k.path ∈ g.reach SourceFile.parents f.path :=
    mem_reach.mpr ⟨k, h.leads_back order leads found, rfl⟩
  rw [is_master, Bool.true_and]
  exact List.any_eq_true.mpr ⟨k.path, above, Path.beq_iff.mpr rfl⟩

theorem mem_addNew {paths l : List Path} {parts : List Part} :
    (∃ t ∈ l.foldl addNew paths, t.parts = parts) ↔
      (∃ t ∈ paths, t.parts = parts) ∨ ∃ t ∈ l, t.parts = parts := by
  induction l generalizing paths with
  | nil => simp
  | cons x rest ih =>
    have one : (∃ t ∈ addNew paths x, t.parts = parts) ↔
        (∃ t ∈ paths, t.parts = parts) ∨ x.parts = parts := by
      unfold addNew
      split
      next known =>
        obtain ⟨t, ht, same⟩ := List.any_eq_true.mp known
        refine ⟨.inl, fun h => h.elim id fun here_ => ⟨t, ht, ?_⟩⟩
        exact (Path.beq_iff.mp same).trans here_
      next => simp [or_and_right, exists_or]
    rw [List.foldl_cons, ih, one]
    simp [or_assoc]

theorem mem_edgesOf {parts : List Part} :
    (∃ t ∈ g.edgesOf f, t.parts = parts) ↔
      ∃ raw ∈ f.rawIncludes, ∃ t, g.resolveRaw f.path raw = .ok t ∧ t.parts = parts := by
  rw [edgesOf, mem_addNew]
  have reached (raw : String) (t : Path) :
      (g.resolveRaw f.path raw).toOption = some t ↔ g.resolveRaw f.path raw = .ok t := by
    cases g.resolveRaw f.path raw <;> simp [Except.toOption]
  constructor
  · rintro (⟨t, ht, _⟩ | ⟨t, ht, same⟩)
    · cases ht
    · obtain ⟨raw, hraw, there⟩ := List.mem_filterMap.mp ht
      exact ⟨raw, hraw, t, (reached raw t).mp there, same⟩
  · rintro ⟨raw, hraw, t, there, same⟩
    exact .inr ⟨t, List.mem_filterMap.mpr ⟨raw, hraw, (reached raw t).mpr there⟩, same⟩

/-- Where an include leads goes by the record of its target only. -/
theorem resolveRaw_of_own {source target : Path} {raw : String}
    (same : (new.file? target).map SourceFile.own = (g.file? target).map SourceFile.own)
    (h : new.resolveRaw source raw = .ok target) : g.resolveRaw source raw = .ok target := by
  have tracked : g.isTracked target = new.isTracked target := by
    have both := congrArg Option.isSome same
    rw [Option.isSome_map, Option.isSome_map] at both
    simpa only [file?, List.isSome_find?, isTracked] using both.symm
  have targets : g.rawTargets target = new.rawTargets target := by
    unfold rawTargets
    cases before : g.file? target with
    | none =>
      rw [before] at same
      cases after : new.file? target with
      | none => rfl
      | some k => simp [after] at same
    | some f =>
      rw [before] at same
      obtain ⟨k, after, own⟩ := Option.map_eq_some_iff.mp same
      have raws : k.rawIncludes = f.rawIncludes := (congrArg SourceFile.rawIncludes own :)
      rw [after]
      dsimp only
      rw [raws]
  unfold resolveRaw at h ⊢
  split at h
  next => cases h
  next t resolved =>
    have reached : t = target := by
      split at h
      next => cases h
      next =>
        split at h
        next => cases h
        next =>
          split at h
          next => cases h
          next => exact Except.ok.inj h
    rw [reached] at h ⊢
    rw [tracked, targets]
    exact h

/-- A way that keeps away from a path is there already if only the path was read again. -/
theorem Leads.elsewhere (linked : g.Linked) (linked' : new.Linked)
    (same : ∀ q : Path, q.parts ≠ p.parts →
      (new.file? q).map SourceFile.own = (g.file? q).map SourceFile.own)
    (leads : new.Leads SourceFile.includes [] m f)
    (away : ∀ k, new.Leads SourceFile.includes [] m k → k.path.parts ≠ p.parts) :
    ∃ k, g.Leads SourceFile.includes [] m k ∧ k.path = f.path := by
  have older {m : Path} {f : SourceFile} (found : new.file? m = some f)
      (other : f.path.parts ≠ p.parts) : ∃ k, g.file? m = some k ∧ k.own = f.own := by
    have recorded := same m ((file_found found).2 ▸ other)
    rw [found] at recorded
    exact Option.map_eq_some_iff.mp recorded.symm
  induction leads with
  | here fresh found =>
    obtain ⟨k, found', own⟩ := older found (away _ (.here fresh found))
    exact ⟨k, .here fresh found', (congrArg SourceFile.path own :)⟩
  | @there m q first f fresh found edge rest ih =>
    -- The first edge is there in both graphs, since neither of its ends is the path.
    have onward : ∀ k, new.Leads SourceFile.includes [] q k → k.path.parts ≠ p.parts :=
      fun k leads => away k (.there fresh found edge leads)
    obtain ⟨k, leads, path⟩ := ih onward
    obtain ⟨first', found', own⟩ := older found (away _ (.here fresh found))
    obtain ⟨j, next⟩ := rest.found
    have other : q.parts ≠ p.parts := by
      rw [← (file_found next).2]
      exact onward _ (.here rfl next)
    rw [(linked'.records (file_found found).1).1] at edge
    obtain ⟨raw, hraw, t, resolved, parts⟩ := mem_edgesOf.mp ⟨q, edge, rfl⟩
    have raws : first'.rawIncludes = first.rawIncludes := (congrArg SourceFile.rawIncludes own :)
    have source : first'.path = first.path := (congrArg SourceFile.path own :)
    have resolved' : g.resolveRaw first'.path raw = .ok t := by
      rw [source]
      exact resolveRaw_of_own (same t (parts ▸ other)) resolved
    obtain ⟨q', edge', parts'⟩ := mem_edgesOf.mpr ⟨raw, raws ▸ hraw, t, resolved', parts⟩
    rw [← (linked.records (file_found found').1).1] at edge'
    exact ⟨k, .there fresh found' edge' (leads.congr parts'.symm), path⟩

section Refresh

variable {σ : Type} [Storage σ] {s s' : σ}

omit [Storage σ] in
theorem file_update {change : SourceFile → SourceFile} (path : ∀ f, (change f).path = f.path)
    (other : q.parts ≠ p.parts) : (g.update p change).file? q = g.file? q := by
  have kept (f : SourceFile) : (if f.path == p then change f else f).path = f.path := by
    split
    next => exact path f
    next => rfl
  rw [update, file_mapFiles g kept]
  cases found : g.file? q with
  | none => rfl
  | some f =>
    have elsewhere : (f.path == p) = false :=
      Path.beq_false_iff.mpr ((file_found found).2 ▸ other)
    simp [elsewhere]

omit [Storage σ] in
theorem file_insert (other : q.parts ≠ f.path.parts) : (g.insert f).file? q = g.file? q := by
  have skip : (f.path == q) = false := Path.beq_false_iff.mpr (Ne.symm other)
  have loop (l : List SourceFile) :
      (insertByPath f l).find? (·.path == q) = l.find? (·.path == q) := by
    induction l with
    | nil => simp [insertByPath, skip]
    | cons k rest ih =>
      unfold insertByPath
      split
      next same =>
        have skip' : (k.path == q) = false :=
          Path.beq_false_iff.mpr (Path.beq_iff.mp same ▸ Ne.symm other)
        simp [skip, skip']
      next =>
        split
        next => simp [skip]
        next => simp only [List.find?_cons, ih]
  exact loop g.files

omit [Storage σ] in
theorem file_erase (other : q.parts ≠ p.parts) : (g.erase p).file? q = g.file? q := by
  change (g.files.filter fun f => !(f.path == p)).find? (·.path == q) = _
  rw [List.find?_filter, file?]
  congr 1
  funext f
  by_cases here_ : f.path.parts = q.parts
  · have elsewhere : (f.path == p) = false := Path.beq_false_iff.mpr (here_ ▸ other)
    simp [elsewhere]
  · simp [Path.beq_false_iff.mpr here_]

theorem reparse_file (g : FileGraph) (s : σ) (other : q.parts ≠ p.parts) :
    (g.reparse s p).1.file? q = g.file? q :=
  file_update (fun _ => rfl) other

/-- Reading one path again leaves the records of all others as they are. -/
theorem reread_file (read : g.reread s p = some (new, s')) (other : q.parts ≠ p.parts) :
    new.file? q = g.file? q := by
  cases rereads_of_reread read with
  | changed => exact reparse_file g s other
  | appeared => exact (reparse_file _ s other).trans (file_insert other)
  | vanished => exact file_erase other

theorem refresh_own (g : FileGraph) (s : σ) (other : q.parts ≠ p.parts) :
    ((g.refresh s p).2.graph.file? q).map SourceFile.own = (g.file? q).map SourceFile.own := by
  unfold refresh
  cases read : g.reread s p with
  | none => rfl
  | some state =>
    obtain ⟨new, s'⟩ := state
    rw [← reread_file read other]
    exact file_of_view (own_relink new) (fun _ => rfl) q

theorem refresh_linked (linked : g.Linked) (s : σ) (p : Path) :
    (g.refresh s p).2.graph.Linked := by
  unfold refresh
  cases g.reread s p with
  | none => exact linked
  | some state => exact linked_relink state.1

/-- A master that owns the path is reported. -/
theorem refresh_reports (linked : g.Linked) (order : InPathOrder g.files)
    (tracked : (g.refresh s p).2.graph.file? m = some k) (is_master : k.isMaster = true)
    (leads : (g.refresh s p).2.graph.Leads SourceFile.includes [] m f)
    (path : f.path.parts = p.parts) : k.path ∈ (g.refresh s p).1 := by
  have order' := refresh_inPathOrder order s p
  have known := (refresh_linked linked s p).mem_masters order' tracked is_master leads
  have recorded : (g.refresh s p).2.graph.file? p = some f :=
    (file_congr_parts path).symm.trans (file_of_mem order' leads.mem)
  have mem := (file_found tracked).1
  unfold refresh at leads recorded mem ⊢
  cases read : g.reread s p with
  | none =>
    rw [read] at leads
    have there := isTracked_iff.mpr ⟨f, leads.mem, path⟩
    rw [(untracked_of_unread read).1] at there
    cases there
  | some state =>
    rw [read] at recorded mem
    refine List.mem_map.mpr ⟨k, List.mem_filter.mpr ⟨mem, ?_⟩, rfl⟩
    have now : (state.1.relink.recordedMasters p).any (· == k.path) = true := by
      rw [recordedMasters, show state.1.relink.file? p = some f from recorded]
      exact List.any_eq_true.mpr ⟨k.path, known, Path.beq_iff.mpr rfl⟩
    rw [is_master, now]
    simp

/-- The family of a master that is not reported holds nothing new, and not the path. -/
theorem refresh_unreported (linked : g.Linked) (order : InPathOrder g.files)
    (is_master : (g.refresh s p).2.graph.isMaster m = true)
    (silent : ∀ x ∈ (g.refresh s p).1, x.parts ≠ m.parts) :
    ∀ x ∈ (g.refresh s p).2.graph.family m, x.parts ≠ p.parts ∧ x ∈ g.family m := by
  obtain ⟨k, tracked, master⟩ := (Option.any_eq_true _ _).mp is_master
  have away : ∀ f, (g.refresh s p).2.graph.Leads SourceFile.includes [] m f →
      f.path.parts ≠ p.parts := fun f leads path =>
    silent k.path (refresh_reports linked order tracked master leads path) (file_found tracked).2
  intro x hx
  obtain ⟨f, leads, rfl⟩ := mem_reach.mp hx
  obtain ⟨k, older, path⟩ := leads.elsewhere linked (refresh_linked linked s p)
    (fun q other => refresh_own g s other) away
  exact ⟨away f leads, mem_reach.mpr ⟨k, older, path⟩⟩

end Refresh

end FileGraph

end StoryBuild
