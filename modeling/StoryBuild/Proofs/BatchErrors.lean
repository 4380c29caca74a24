import StoryBuild.Engine.Run
import StoryBuild.Sandbox
import StoryBuild.Proofs.BatchRecord
import StoryBuild.Proofs.Outcomes

namespace StoryBuild

/-- A job of a batch with all that failed outright in it, the writing of its artifact included. -/
structure EndedJob where
  job : Job
  unhandled : List String

namespace EndedJob

/-- Whether a job ended with an error. -/
def Errs (v : EndedJob) : Prop :=
  (∃ d ∈ Diagnostic.ofLines v.job.lines, d.severity = .error) ∨ v.unhandled ≠ []

/-- Whether a job is the last of its master among some jobs. -/
def IsLast (v : EndedJob) (ended : List EndedJob) : Prop :=
  ∃ before after, ended = before ++ v :: after ∧ ∀ w ∈ after, (w.job.path == v.job.path) = false

end EndedJob

section Storage

variable {σ : Type} [Storage σ]

/-- What fails in the writing of the artifact of a job, and the storage afterwards. -/
def Job.deliver (j : Job) (s : σ) : List String × σ :=
  match j.artifact with
  | none => ([], s)
  | some content =>
    match Storage.write s j.output content with
    | (.ok (), s) => ([], s)
    | (.error cause, s) => ([s!"failed to write artifact: {cause.message}"], s)

/-- Jobs whose artifacts are written one after the other. -/
def endedJobs : σ → List Job → List EndedJob
  | _, [] => []
  | s, j :: rest => ⟨j, j.unhandled ++ (j.deliver s).1⟩ :: endedJobs (j.deliver s).2 rest

theorem map_job_endedJobs (jobs : List Job) (s : σ) :
    (endedJobs s jobs).map EndedJob.job = jobs := by
  induction jobs generalizing s with
  | nil => rfl
  | cons j rest ih => rw [endedJobs, List.map_cons, ih]

end Storage

namespace FileGraph

variable {g new : FileGraph} {f : SourceFile} {m p : Path} {v : EndedJob}
  {ended : List EndedJob}

/-- A family carries an error if one of its files does. -/
theorem familyHasErrors_iff (order : InPathOrder g.files) :
    g.familyHasErrors m = true ↔ ∃ f ∈ g.files, f.path ∈ g.family m ∧ f.hasErrors = true := by
  rw [familyHasErrors, List.any_eq_true]
  constructor
  · rintro ⟨p, hp, erring⟩
    obtain ⟨f, leads, rfl⟩ := mem_reach.mp hp
    rw [file_of_mem order leads.mem] at erring
    exact ⟨f, leads.mem, hp, erring⟩
  · rintro ⟨f, hf, hp, erring⟩
    refine ⟨f.path, hp, ?_⟩
    rw [file_of_mem order hf]
    exact erring

theorem mem_family_of_any (order : InPathOrder g.files) (hf : f ∈ g.files)
    (inside : (g.family m).any (· == f.path) = true) : f.path ∈ g.family m := by
  obtain ⟨x, hx, same⟩ := List.any_eq_true.mp inside
  obtain ⟨k, leads, rfl⟩ := mem_reach.mp hx
  obtain rfl := order.unique leads.mem hf (Path.beq_iff.mp same)
  exact hx

/-- Whether a job puts an error on a file. -/
def Charges (g : FileGraph) (v : EndedJob) (f : SourceFile) : Prop :=
  (∃ d ∈ g.heard v.job.path (Diagnostic.ofLines v.job.lines) f, d.severity = .error) ∨
    ((f.path == v.job.path) = true ∧ v.unhandled ≠ [])

/-- The last of some jobs that settled what is said about a file. -/
def lastCovering (g : FileGraph) (ended : List EndedJob) (f : SourceFile) : Option EndedJob :=
  (ended.filter fun v => g.covers v.job.path f).getLast?

/-- Whether a file carries an error after some jobs. The last that settled it decides; without one
the file is as before. -/
def Erred (g : FileGraph) (ended : List EndedJob) (f : SourceFile) : Prop :=
  match g.lastCovering ended f with
  | some v => g.Charges v f
  | none => f.hasErrors = true

theorem hasErrors_recordAfter {r : CompileResult}
    (read : r.diagnostics = Diagnostic.ofLines v.job.lines) (failed : r.unhandled = v.unhandled) :
    (g.recordAfter v.job.path r f).hasErrors = true ↔ g.Erred [v] f := by
  rw [Erred, lastCovering]
  cases settles : g.covers v.job.path f with
  | false =>
    rw [recordAfter_of_not_covers r settles]
    simp [settles]
  | true =>
    have errors (ds : List Diagnostic) :
        (ds.filter (·.severity = .error)).isEmpty = false ↔ ∃ d ∈ ds, d.severity = .error := by
      simp [List.isEmpty_eq_false_iff]
    rw [recordAfter_of_covers r settles, read]
    simp only [List.filter_cons, settles, ↓reduceIte, List.filter_nil, List.getLast?_singleton,
      Charges, ← errors]
    split
    next master =>
      simp [SourceFile.hasErrors, SourceFile.settled, SourceFile.retold, failed, master]
    next other => simp [SourceFile.hasErrors, SourceFile.retold, other]

theorem erred_of_linkage (links : new.mapFiles SourceFile.linkage = g.mapFiles SourceFile.linkage) :
    new.Erred ended f ↔ g.Erred ended f := by
  have heard (v : EndedJob) (ds : List Diagnostic) :
      new.heard v.job.path ds f = g.heard v.job.path ds f := by
    simp only [FileGraph.heard, family_of_linkage links, ownerOf_of_linkage links]
  simp only [Erred, lastCovering, Charges, covers_of_linkage links, heard]

/-- The first of some jobs is forgotten where a later one settles the file, too. -/
theorem erred_cons {r : CompileResult} (read : r.diagnostics = Diagnostic.ofLines v.job.lines)
    (failed : r.unhandled = v.unhandled) :
    g.Erred ended (g.recordAfter v.job.path r f) ↔ g.Erred (v :: ended) f := by
  have same (w : EndedJob) :
      g.covers w.job.path (g.recordAfter v.job.path r f) = g.covers w.job.path f :=
    covers_recordAfter g v.job.path r f w.job.path
  have charges (w : EndedJob) :
      g.Charges w (g.recordAfter v.job.path r f) ↔ g.Charges w f := by
    rw [Charges, Charges, heard, heard, recordAfter_path]
  have last : g.lastCovering (v :: ended) f =
      (g.lastCovering ended f).or (g.lastCovering [v] f) := by
    unfold lastCovering
    rw [← List.singleton_append, List.filter_append, List.getLast?_append]
  have here_ := hasErrors_recordAfter (g := g) (f := f) read failed
  have later : g.lastCovering ended (g.recordAfter v.job.path r f) = g.lastCovering ended f := by
    simp only [lastCovering, same]
  unfold Erred at here_ ⊢
  rw [later, last]
  cases g.lastCovering ended f with
  | some w => exact charges w
  | none => exact here_

theorem lastCovering_eq_some : g.lastCovering ended f = some v ↔
    ∃ before after, ended = before ++ v :: after ∧ g.covers v.job.path f = true ∧
      ∀ w ∈ after, g.covers w.job.path f = false := by
  rw [lastCovering, List.getLast?_eq_some_iff]
  constructor
  · rintro ⟨earlier, split⟩
    obtain ⟨before, behind, rfl, -, split⟩ := List.filter_eq_append_iff.mp split
    obtain ⟨between, after, rfl, -, settles, none_⟩ := List.filter_eq_cons_iff.mp split
    refine ⟨before ++ between, after, by simp, settles, fun w hw => ?_⟩
    simpa using List.filter_eq_nil_iff.mp none_ w hw
  · rintro ⟨before, after, rfl, settles, none_⟩
    refine ⟨before.filter fun v => g.covers v.job.path f, ?_⟩
    have behind : (after.filter fun v => g.covers v.job.path f) = [] :=
      List.filter_eq_nil_iff.mpr fun w hw => by simp [none_ w hw]
    rw [List.filter_append, List.filter_cons, if_pos settles, behind]

/-- The last of the jobs that settle a file is the last of its master. -/
theorem Owned.lastCovering_eq_some (owned : g.Owned) (order : InPathOrder g.files)
    (masters : ∀ w ∈ ended, g.isMaster w.job.path = true) (hf : f ∈ g.files) :
    g.lastCovering ended f = some v ↔ v.IsLast ended ∧ f.isOwnedBy v.job.path = true := by
  rw [FileGraph.lastCovering_eq_some, EndedJob.IsLast]
  constructor
  · rintro ⟨before, after, rfl, settles, none_⟩
    have mine := (owned.covers_eq order (masters v (by simp)) hf).symm.trans settles
    refine ⟨⟨before, after, rfl, fun w hw => Path.beq_false_iff.mpr fun same => ?_⟩, mine⟩
    have theirs := (owned.covers_eq order (masters w (by simp [hw])) hf).symm.trans (none_ w hw)
    simp only [SourceFile.isOwnedBy, Path.beq_congr same] at theirs mine
    rw [theirs] at mine
    cases mine
  · rintro ⟨⟨before, after, rfl, others⟩, mine⟩
    refine ⟨before, after, rfl, (owned.covers_eq order (masters v (by simp)) hf).trans mine,
      fun w hw => ?_⟩
    rw [owned.covers_eq order (masters w (by simp [hw])) hf]
    exact isOwnedBy_other mine
      (Path.beq_false_iff.mpr fun same => Path.beq_false_iff.mp (others w hw) same.symm)

/-- A job that ends with an error puts one on a file of its master. -/
theorem exists_charged (order : InPathOrder g.files) (master : g.isMaster v.job.path = true)
    (errs : v.Errs) :
    ∃ f ∈ g.files, g.covers v.job.path f = true ∧ g.Charges v f := by
  rcases errs with ⟨d, hd, severity⟩ | failed
  · obtain ⟨f, hf, owner⟩ := owner_tracked master d
    exact ⟨f, hf, covers_of_owner order hf owner,
      .inl ⟨d, List.mem_filter.mpr ⟨hd, owner⟩, severity⟩⟩
  · obtain ⟨f, found, -⟩ := (Option.any_eq_true _ _).mp master
    obtain ⟨hf, path⟩ := file_found found
    have same := Path.beq_iff.mpr path
    refine ⟨f, hf, ?_, .inr ⟨same, failed⟩⟩
    rw [covers, mem_family_self hf path, same]
    rfl

theorem Charges.errs (h : g.Charges v f) : v.Errs := by
  rcases h with ⟨d, hd, severity⟩ | ⟨-, failed⟩
  · exact .inl ⟨d, (List.mem_filter.mp hd).1, severity⟩
  · exact .inr failed

/-- After some jobs of masters an error stands in one of their families exactly if the last job of
one of them ended with one, or the family had one on a file that none of them is the first owner
of. -/
theorem Owned.exists_erred_iff (owned : g.Owned) (order : InPathOrder g.files)
    (masters : ∀ w ∈ ended, g.isMaster w.job.path = true) :
    (∃ w ∈ ended, ∃ f ∈ g.files, f.path ∈ g.family w.job.path ∧ g.Erred ended f) ↔
      (∃ v : EndedJob, v.IsLast ended ∧ v.Errs) ∨
        ∃ w ∈ ended, ∃ f ∈ g.files, f.path ∈ g.family w.job.path ∧
          (∀ u ∈ ended, f.isOwnedBy u.job.path = false) ∧ f.hasErrors = true := by
  constructor
  · rintro ⟨w, hw, f, hf, inside, erred⟩
    cases last : g.lastCovering ended f with
    | some v =>
      rw [Erred, last] at erred
      exact .inl ⟨v, ((owned.lastCovering_eq_some order masters hf).mp last).1, erred.errs⟩
    | none =>
      rw [Erred, last] at erred
      refine .inr ⟨w, hw, f, hf, inside, fun u hu => ?_, erred⟩
      have away := List.filter_eq_nil_iff.mp (List.getLast?_eq_none_iff.mp last) u hu
      rw [← owned.covers_eq order (masters u hu) hf]
      simpa using away
  · rintro (⟨v, isLast, errs⟩ | ⟨w, hw, f, hf, inside, others, erring⟩)
    · have hv : v ∈ ended := by
        obtain ⟨before, after, rfl, -⟩ := isLast
        simp
      obtain ⟨f, hf, settles, charges⟩ := exists_charged order (masters v hv) errs
      have mine := (owned.covers_eq order (masters v hv) hf).symm.trans settles
      have inside := (Bool.and_eq_true_iff.mp settles).1
      refine ⟨v, hv, f, hf, mem_family_of_any order hf inside, ?_⟩
      rw [Erred, (owned.lastCovering_eq_some order masters hf).mpr ⟨isLast, mine⟩]
      exact charges
    · refine ⟨w, hw, f, hf, inside, ?_⟩
      have none_ : g.lastCovering ended f = none := by
        refine List.getLast?_eq_none_iff.mpr (List.filter_eq_nil_iff.mpr fun u hu => ?_)
        rw [owned.covers_eq order (masters u hu) hf, others u hu]
        simp
      rw [Erred, none_]
      exact erring

end FileGraph

namespace Engine

open FileGraph

variable {σ : Type} [Workshop σ]

/-- What one job puts on record. -/
theorem applyJob_result (s : Summary) (e : Engine σ) (j : Job) :
    (∃ r : CompileResult, r.diagnostics = Diagnostic.ofLines j.lines ∧
      r.unhandled = j.unhandled ++ (j.deliver e.site).1 ∧
      (applyJob (s, e) j).2.graph = e.graph.applyResult j.path r) ∧
      (applyJob (s, e) j).2.site = (j.deliver e.site).2 := by
  have written : (e.writeArtifact j).2.1 = (j.deliver e.site).1 ∧
      (e.writeArtifact j).2.2.site = (j.deliver e.site).2 := by
    unfold writeArtifact Job.deliver
    cases j.artifact with
    | none => exact ⟨rfl, rfl⟩
    | some content =>
      dsimp only
      cases Storage.write e.site j.output content with
      | mk result site => cases result <;> exact ⟨rfl, rfl⟩
  obtain ⟨failures, site⟩ := written
  obtain ⟨graph, moved⟩ := applyJob_rest s e j
  rw [← failures, ← site]
  exact ⟨⟨⟨Diagnostic.ofLines j.lines, j.unhandled ++ (e.writeArtifact j).2.1,
    (e.writeArtifact j).1, (e.writeArtifact j).2.2.wall⟩, rfl, rfl, graph⟩, moved⟩

/-- Jobs that are put on record change each file by itself, and leave the links alone. -/
theorem applyJobs_erred (jobs : List Job) (s : Summary) {e : Engine σ}
    (order : InPathOrder e.graph.files) :
    ∃ change : SourceFile → SourceFile, (∀ f, (change f).path = f.path) ∧
      (jobs.foldl applyJob (s, e)).2.graph = e.graph.mapFiles change ∧
      (e.graph.mapFiles change).mapFiles SourceFile.linkage =
        e.graph.mapFiles SourceFile.linkage ∧
      ∀ f, (change f).hasErrors = true ↔ e.graph.Erred (endedJobs e.site jobs) f := by
  induction jobs generalizing s e with
  | nil => exact ⟨id, fun _ => rfl, by simp [mapFiles], by simp [mapFiles], fun f => Iff.rfl⟩
  | cons j rest ih =>
    obtain ⟨⟨r, read, failed, graph⟩, site⟩ := applyJob_result s e j
    have links : (applyJob (s, e) j).2.graph.mapFiles SourceFile.linkage =
        e.graph.mapFiles SourceFile.linkage := graph ▸ linkage_applyResult e.graph j.path r
    obtain ⟨change, path, after, links', erred⟩ :=
      ih (applyJob (s, e) j).1 (inPathOrder_of_linkage order links)
    rw [graph, applyResult_eq order] at links links' after
    refine ⟨fun f => change (e.graph.recordAfter j.path r f),
      fun f => (path _).trans (recordAfter_path e.graph j.path r f), ?_, ?_, fun f => ?_⟩
    · exact after.trans (mapFiles_mapFiles _ _ _)
    · exact (congrArg (mapFiles · SourceFile.linkage) (mapFiles_mapFiles _ _ _)).symm.trans
        (links'.trans links)
    · rw [erred, graph, applyResult_eq order, erred_of_linkage links, site]
      exact erred_cons (v := ⟨j, j.unhandled ++ (j.deliver e.site).1⟩) read failed

/-- The jobs of the batch as they will end. -/
def ended (e : Engine σ) : List EndedJob :=
  endedJobs e.site e.batchJobs

/-- The summary of a batch of masters speaks of errors exactly if the last job of one of them ended
with one, or a file that one of them includes, and whose first owner is not among them, carried one
before. -/
theorem closeBatch_hasErrors_iff {e : Engine σ} (now : Nat) (owned : e.graph.Owned)
    (order : InPathOrder e.graph.files)
    (masters : ∀ j ∈ e.batchJobs, e.graph.isMaster j.path = true) :
    (e.closeBatch now).1.hasErrors = true ↔
      (∃ v : EndedJob, v.IsLast e.ended ∧ v.Errs) ∨
        ∃ j ∈ e.batchJobs, ∃ f ∈ e.graph.files, f.path ∈ e.graph.family j.path ∧
          (∀ k ∈ e.batchJobs, f.isOwnedBy k.path = false) ∧ f.hasErrors = true := by
  obtain ⟨change, path, graph, links, erred⟩ :=
    applyJobs_erred e.batchJobs {} (e := { e with jobs := [], abandoned := [] }) order
  have jobs : e.ended.map EndedJob.job = e.batchJobs := map_job_endedJobs _ _
  have ends (P : Job → Prop) : (∃ j ∈ e.batchJobs, P j) ↔ ∃ v ∈ e.ended, P v.job := by
    rw [← jobs]
    simp
  have masters' : ∀ v ∈ e.ended, e.graph.isMaster v.job.path = true := fun v hv =>
    masters v.job (jobs ▸ List.mem_map_of_mem hv)
  -- The summary looks at the graph once everything is on record.
  have read : (e.closeBatch now).1.hasErrors =
      e.batchJobs.any fun j => (e.graph.mapFiles change).familyHasErrors j.path := by
    rw [← graph]
    rfl
  have family (j : Job) : (e.graph.mapFiles change).familyHasErrors j.path = true ↔
      ∃ f ∈ e.graph.files, f.path ∈ e.graph.family j.path ∧ e.graph.Erred e.ended f := by
    rw [familyHasErrors_iff (inPathOrder_of_linkage order links), family_of_linkage links]
    constructor
    · rintro ⟨f, hf, inside, erring⟩
      obtain ⟨k, hk, rfl⟩ := List.mem_map.mp hf
      exact ⟨k, hk, path k ▸ inside, (erred k).mp erring⟩
    · rintro ⟨k, hk, inside, erring⟩
      exact ⟨change k, List.mem_map_of_mem hk, (path k).symm ▸ inside, (erred k).mpr erring⟩
  rw [read, List.any_eq_true]
  simp only [family, ends]
  rw [owned.exists_erred_iff order masters']
  simp only [← jobs, List.forall_mem_map]

/-- Two masters share a part, which belongs to the first. The second was compiled twice in a batch:
its first job was given up, and the next one, which ended well, could not write its artifact if the
disk refuses that. -/
def retriedBatch (stray : List Diagnostic) (refusals : Nat) : Engine Sandbox :=
  let graph : FileGraph :=
    { root := .ofText "/story"
      options := { extension := "ink" }
      files := [{ path := .ofText "a.ink", includes := [.ofText "part.ink"] },
        { path := .ofText "b.ink", includes := [.ofText "part.ink"] },
        { path := .ofText "part.ink", errors := stray }] }
  let job (id : Nat) : Job :=
    { id, path := .ofText "b.ink", input := .ofText "/story/b.ink"
      output := .ofText "/story/b.json", immediate := false, state := .complete }
  { fresh graph.rebuildOwnership {}
      { disk := MemoryDisk.empty.failWrite (.ofText "/story/b.json") refusals } 0 with
    jobs := [{ job 2 with artifact := some "B".toUTF8 }]
    abandoned := [{ job 1 with unhandled := ["timed out"] }] }

/-- An error on the part that a compile of the first master left. -/
def strayError : Diagnostic :=
  ⟨.error, some "part.ink", some 1, "broken"⟩

/-- The job that was given up does not count, a refused artifact does, and so does an error on the
part although its owner was not compiled. -/
theorem retried_batch_errors :
    (retriedBatch [] 0).ended.map EndedJob.unhandled = [["timed out"], []] ∧
      ((retriedBatch [] 0).closeBatch 0).1.hasErrors = false ∧
      ((retriedBatch [] 1).closeBatch 0).1.hasErrors = true ∧
      (let e := retriedBatch [strayError] 0
      (e.closeBatch 0).1.hasErrors = true ∧
        ((∃ v : EndedJob, v.IsLast e.ended ∧ v.Errs) ∨
          ∃ j ∈ e.batchJobs, ∃ f ∈ e.graph.files, f.path ∈ e.graph.family j.path ∧
            (∀ k ∈ e.batchJobs, f.isOwnedBy k.path = false) ∧ f.hasErrors = true)) := by
  have order : InPathOrder (retriedBatch [strayError] 0).graph.files := by
    unfold InPathOrder
    decide +kernel
  have erring : ((retriedBatch [strayError] 0).closeBatch 0).1.hasErrors = true := by
    decide +kernel
  exact ⟨by decide +kernel, by decide +kernel, by decide +kernel, erring,
    (closeBatch_hasErrors_iff 0 (owned_rebuildOwnership _) order (by decide +kernel)).mp erring⟩

end Engine

end StoryBuild
