import StoryBuild.Proofs.Desk
import StoryBuild.Proofs.JobLedger
import StoryBuild.Proofs.Linking

namespace StoryBuild

/-- What the record of a batch tells. -/
inductive Deed (batch : List Job) : Event → Prop where
  | wrote {j : Job} (mine : j ∈ batch) (content : ByteArray) : Deed batch (.wrote j.output content)
  | produced {j : Job} (mine : j ∈ batch) : Deed batch (.produced j.id)
  | log (line : LogLine) : Deed batch (.log line)
  | applied {j : Job} (mine : j ∈ batch) : Deed batch (.applied j.id)

/-- A desk after some jobs of a batch were put on record. -/
structure Records {σ : Type} (batch done : List Job) (c d : Desk σ) : Prop where
  deeds : ∃ deeds, (∀ event ∈ deeds, Deed batch event) ∧ (∀ j ∈ done, .applied j.id ∈ deeds) ∧
    d.trace = deeds ++ c.trace
  links : d.graph.mapFiles SourceFile.linkage = c.graph.mapFiles SourceFile.linkage
  rest : d = { c with graph := d.graph, site := d.site, trace := d.trace }

namespace Records

variable {σ : Type} {batch done others : List Job} {c d f : Desk σ}

theorem refl (c : Desk σ) : Records batch [] c c :=
  ⟨⟨[], by simp, by simp, rfl⟩, rfl, rfl⟩

theorem trans (h : Records batch done c d) (h' : Records batch others d f) :
    Records batch (done ++ others) c f := by
  obtain ⟨deeds, hd, applied, trace⟩ := h.deeds
  obtain ⟨deeds', hd', applied', trace'⟩ := h'.deeds
  refine ⟨⟨deeds' ++ deeds, ?_, ?_, ?_⟩, h'.links.trans h.links, ?_⟩
  · intro event hevent
    rcases List.mem_append.mp hevent with hevent | hevent
    · exact hd' event hevent
    · exact hd event hevent
  · intro j hj
    rcases List.mem_append.mp hj with hj | hj
    · exact List.mem_append_right _ (applied j hj)
    · exact List.mem_append_left _ (applied' j hj)
  · rw [trace', trace, List.append_assoc]
  · rw [h'.rest, h.rest]

theorem note {event : Event} (h : Records batch done c d) (deed : Deed batch event) :
    Records batch done c { d with trace := event :: d.trace } := by
  have one : Records batch [] d { d with trace := event :: d.trace } := by
    refine ⟨⟨[event], ?_, by simp, rfl⟩, rfl, rfl⟩
    intro x hx
    rwa [List.mem_singleton.mp hx]
  simpa using h.trans one

end Records

namespace Engine

variable {σ : Type} [Workshop σ] {batch : List Job} {stage : Stage} {saved : Bool}

theorem writeArtifact_records {j : Job} (mine : j ∈ batch) (e : Engine σ) :
    Records batch [] (e.desk stage saved) ((e.writeArtifact j).2.2.desk stage saved) := by
  unfold writeArtifact
  split
  next => exact .refl _
  next content _ =>
    split
    next site _ =>
      have moved : Records batch [] (e.desk stage saved) ({ e with site }.desk stage saved) :=
        ⟨⟨[], by simp, by simp, rfl⟩, rfl, rfl⟩
      exact (moved.note (.wrote mine content)).note (.produced mine)
    next cause site _ =>
      have moved : Records batch [] (e.desk stage saved) ({ e with site }.desk stage saved) :=
        ⟨⟨[], by simp, by simp, rfl⟩, rfl, rfl⟩
      exact moved.note (.log _)

omit [Workshop σ] in
theorem logAll_records (e : Engine σ) (lines : List LogLine) :
    Records batch [] (e.desk stage saved) ((e.logAll lines).desk stage saved) := by
  refine ⟨⟨(lines.map Event.log).reverse, ?_, by simp, rfl⟩, rfl, rfl⟩
  intro event hevent
  obtain ⟨line, _, rfl⟩ := List.mem_map.mp (List.mem_reverse.mp hevent)
  exact .log line

/-- The record of one job. -/
theorem applyJob_records {j : Job} (mine : j ∈ batch) (s : Summary) (e : Engine σ) :
    Records batch [j] (e.desk stage saved) ((applyJob (s, e) j).2.desk stage saved) := by
  have spoken (d : Engine σ) : Records batch [] (d.desk stage saved)
      ((if d.options.logDiagnostics then
        d.logAll ((Diagnostic.ofLines j.lines).map diagnosticLog) else d).desk stage saved) := by
    split
    next => exact d.logAll_records _
    next => exact .refl _
  have filed (d : Engine σ) (diagnostics : List Diagnostic) (unhandled : List String)
      (artifact : Option Path) : Records batch [j] (d.desk stage saved)
      (({ d with
        graph := d.graph.applyOutcome j.path diagnostics unhandled artifact d.wall }.note
        (.applied j.id)).desk stage saved) := by
    refine ⟨⟨[.applied j.id], ?_, ?_, rfl⟩, FileGraph.linkage_applyOutcome _ _ _ _ _ _, rfl⟩
    · simpa using .applied mine
    · simp
  exact (((e.writeArtifact_records mine).trans (logAll_records _ _)).trans (spoken _)).trans
    (filed _ _ _ _)

theorem applyJobs_records (jobs : List Job) (mine : ∀ j ∈ jobs, j ∈ batch) (s : Summary)
    (e : Engine σ) :
    Records batch jobs (e.desk stage saved) ((jobs.foldl applyJob (s, e)).2.desk stage saved) := by
  induction jobs generalizing s e with
  | nil => exact .refl _
  | cons j rest ih =>
    have first : Records batch [j] (e.desk stage saved) _ := applyJob_records (mine j (by simp)) s e
    exact first.trans (ih (fun k hk => mine k (List.mem_cons_of_mem _ hk)) _ _)

/-- The record of a batch leaves no job behind, and changes nothing else but the artifacts and what
compiles have said. -/
theorem applyBatch_desk (e : Engine σ) (stage : Stage) (saved : Bool) :
    ∃ deeds graph site, (∀ event ∈ deeds, Deed e.batchJobs event) ∧
      (∀ j ∈ e.batchJobs, .applied j.id ∈ deeds) ∧
      graph.mapFiles SourceFile.linkage = e.graph.mapFiles SourceFile.linkage ∧
      e.applyBatch.2.desk stage saved =
        { e.desk stage saved with
          jobs := []
          abandoned := []
          graph
          site
          trace := .drained e.batchJobs e.applyBatch.1 :: (deeds ++ e.trace) } := by
  have records : Records e.batchJobs e.batchJobs
      (({ e with jobs := [], abandoned := [] } : Engine σ).desk stage saved) _ :=
    applyJobs_records e.batchJobs (fun _ hj => hj) {} { e with jobs := [], abandoned := [] }
  obtain ⟨deeds, said, applied, trace⟩ := records.deeds
  have rest := records.rest
  generalize hd : e.batchJobs.foldl applyJob ({}, { e with jobs := [], abandoned := [] }) = done
    at records trace rest
  refine ⟨deeds, done.2.graph, done.2.site, said, applied, records.links, ?_⟩
  have ended : e.applyBatch.2.desk stage saved =
      { done.2.desk stage saved with
        trace := .drained e.batchJobs e.applyBatch.1 :: done.2.trace } := by
    rw [← hd]
    rfl
  have told : done.2.trace = deeds ++ e.trace := trace
  rw [ended, told, rest]
  rfl

omit [Workshop σ] in
theorem batchJobs_mem {e : Engine σ} {j : Job} :
    j ∈ e.batchJobs ↔ j ∈ e.jobs ∨ j ∈ e.abandoned := by
  rw [batchJobs, (Job.sortById_perm _).mem_iff, List.mem_append]

end Engine

end StoryBuild
