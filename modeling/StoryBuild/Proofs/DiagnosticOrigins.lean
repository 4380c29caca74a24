import StoryBuild.Proofs.ChangesKept
import StoryBuild.Proofs.Outcomes

namespace StoryBuild

/-- A compile that was put on record, and the graph as it was linked then. -/
structure Applied where
  job : Job
  graph : FileGraph

namespace Applied

/-- The diagnostics that a compile reported. -/
def reported (v : Applied) : List Diagnostic :=
  Diagnostic.ofLines v.job.lines

/-- Whether a compile settled what is said about the file of a path. -/
def settles (v : Applied) (p : Path) : Bool :=
  (v.graph.file? p).any (v.graph.covers v.job.path)

end Applied

/-- The last of some compiles that settled what is said about a path. -/
def lastSettling (log : List Applied) (p : Path) : Option Applied :=
  (log.filter (·.settles p)).getLast?

/-- The last of some compiles of a master. -/
def lastOf (log : List Applied) (m : Path) : Option Applied :=
  (log.filter (·.job.path == m)).getLast?

/-- Whether diagnostics were all reported by one compile. -/
def ReportedBy (source : Option Applied) (ds : List Diagnostic) : Prop :=
  ∀ d ∈ ds, ∃ v, source = some v ∧ d ∈ v.reported

/-- Whether all that is said about a file was reported by the last compile of its primary master. -/
def SourceFile.FromOwner (f : SourceFile) (log : List Applied) : Prop :=
  ∀ d ∈ f.allDiagnosed, ∃ m, f.primaryMaster? = some m ∧
    ∃ v, lastOf log m = some v ∧ d ∈ v.reported

/-- The jobs of the batches that a trace tells of, in the order in which they were put on record. -/
def drainedJobs : List Event → List Job
  | [] => []
  | .drained jobs _ :: earlier => drainedJobs earlier ++ jobs
  | _ :: earlier => drainedJobs earlier

theorem drainedJobs_append (events earlier : List Event) :
    drainedJobs (events ++ earlier) = drainedJobs earlier ++ drainedJobs events := by
  induction events with
  | nil => simp [drainedJobs]
  | cons event rest ih => cases event <;> simp [drainedJobs, ih]

theorem drainedJobs_of_none {events : List Event}
    (none_ : ∀ event ∈ events, ∀ jobs s, event ≠ .drained jobs s) :
    drainedJobs events = [] := by
  induction events with
  | nil => rfl
  | cons event rest ih =>
    have others := ih fun x hx => none_ x (List.mem_cons_of_mem _ hx)
    cases event with
    | drained jobs s => exact absurd rfl (none_ _ List.mem_cons_self jobs s)
    | _ => exact others

namespace FileGraph

variable {g new : FileGraph} {f : SourceFile} {p : Path}

section Reading

variable {σ : Type} [Storage σ] {P : Path → List Diagnostic → Prop} (blank : ∀ p, P p [])

/-- Whether something holds of what is said about each file. -/
def Says (P : Path → List Diagnostic → Prop) (g : FileGraph) : Prop :=
  ∀ f ∈ g.files, P f.path f.allDiagnosed

omit [Storage σ] in
theorem Says.of_report (h : g.Says P)
    (same : new.mapFiles SourceFile.report = g.mapFiles SourceFile.report) : new.Says P := by
  intro f hf
  obtain ⟨k, hk, report⟩ := mem_of_view same hf
  have path : k.path = f.path := (congrArg SourceFile.path report :)
  have said : k.allDiagnosed = f.allDiagnosed := (congrArg SourceFile.allDiagnosed report :)
  rw [← path, ← said]
  exact h k hk

omit [Storage σ] in
theorem Says.insert (h : g.Says P) (untracked : g.isTracked f.path = false)
    (new : P f.path f.allDiagnosed) : (g.insert f).Says P := by
  intro k hk
  rcases (mem_insert untracked).mp hk with rfl | hk
  · exact new
  · exact h k hk

theorem Says.reparse (h : g.Says P) (s : σ) (p : Path) : (g.reparse s p).1.Says P :=
  h.of_report (view_update g p fun _ => rfl)

theorem Says.reparseAll (h : g.Says P) (s : σ) (paths : List Path) :
    (g.reparseAll s paths).1.Says P :=
  reparseAll_preserves (M := fun new _ => new.Says P) (fun p h => h.reparse _ p) h paths

include blank

theorem Says.refresh (h : g.Says P) (s : σ) (p : Path) : (g.refresh s p).2.graph.Says P := by
  unfold FileGraph.refresh
  cases read : g.reread s p with
  | none => exact h
  | some state =>
    obtain ⟨after, s'⟩ := state
    have reread : after.Says P := by
      cases rereads_of_reread read with
      | changed => exact h.reparse s p
      | appeared file untracked source => exact (h.insert untracked (blank p)).reparse s p
      | vanished => exact fun f hf => h f (List.mem_filter.mp hf).1
    exact reread.of_report (report_relink after)

theorem Says.importAll (h : g.Says P) (l : List Path) (s : σ) (found : Found) :
    (l.foldl importFile (g, s, found)).1.Says P := by
  have origin := importAll_origin (g := g) (P := fun _ : σ => True) (fun _ _ => id) l (s := s)
    trivial found
  intro f hf
  rcases origin f hf with old | ⟨-, _, _, _, -, -, new⟩
  · exact h f old
  · rw [new]
    exact blank f.path

/-- A rebuild keeps what is said about the files that are still there. -/
theorem Says.rebuild (h : g.Says P) (s : σ) : (g.rebuild s).2.graph.Says P := by
  have kept : (g.prune s).Says P := fun f hf => h f (List.mem_filter.mp hf).1
  unfold FileGraph.rebuild
  dsimp only
  split
  next => exact kept
  next after s' found discovered =>
    obtain ⟨paths, -, state⟩ := discover_ok discovered
    have imported := kept.importAll blank paths s {}
    rw [state] at imported
    exact (imported.reparseAll s' after.paths).of_report (report_relink _)

omit blank in
/-- A graph that was built has heard of no compile. -/
theorem build_silent {root : Path} {options : GraphOptions} {s : σ} {reading : Reading σ}
    (built : build root options s = .ok reading) :
    ∀ f ∈ reading.graph.files, f.allDiagnosed = [] := by
  have silent := Says.rebuild (g := empty root options) (P := fun _ ds => ds = [])
    (fun _ => rfl) (fun f hf => nomatch hf) s
  rwa [rebuild_of_build built] at silent

end Reading

/-- Whether what is said about each file comes from the last compile that settled it. -/
def Attributed (log : List Applied) : FileGraph → Prop :=
  Says fun p ds => ReportedBy (lastSettling log p) ds

theorem settles_of_linkage (links : new.mapFiles SourceFile.linkage = g.mapFiles SourceFile.linkage)
    (j : Job) (p : Path) : (Applied.mk j new).settles p = (Applied.mk j g).settles p := by
  have linked (g : FileGraph) : (Applied.mk j g).settles p =
      ((g.file? p).map SourceFile.linkage).any (g.covers j.path) := by
    rw [Option.any_map]
    rfl
  rw [linked new, linked g, file_of_view links (fun _ => rfl), funext (covers_of_linkage links _)]

theorem lastSettling_snoc (log : List Applied) (v : Applied) (p : Path) :
    lastSettling (log ++ [v]) p = if v.settles p then some v else lastSettling log p := by
  rw [lastSettling, List.filter_append]
  split
  next settled => simp [settled]
  next away => simp [away, lastSettling]

theorem Attributed.applyResult {log : List Applied} {links : FileGraph} (h : g.Attributed log)
    (order : InPathOrder g.files)
    (same : g.mapFiles SourceFile.linkage = links.mapFiles SourceFile.linkage) (j : Job)
    {r : CompileResult} (read : r.diagnostics = Diagnostic.ofLines j.lines) :
    (g.applyResult j.path r).Attributed (log ++ [⟨j, links⟩]) := by
  rw [applyResult_eq order]
  intro f hf
  obtain ⟨k, hk, rfl⟩ := List.mem_map.mp hf
  have settles : (Applied.mk j links).settles k.path = g.covers j.path k := by
    rw [← settles_of_linkage same, Applied.settles, file_of_mem order hk]
    rfl
  rw [recordAfter_path, lastSettling_snoc, settles]
  cases covered : g.covers j.path k with
  | false =>
    rw [recordAfter_of_not_covers r covered]
    exact h k hk
  | true =>
    -- Nothing older than the compile is left on a file that it settles.
    intro d hd
    refine ⟨_, rfl, ?_⟩
    have heard : d ∈ g.heard j.path r.diagnostics k := by
      rw [recordAfter_of_covers r covered] at hd
      split at hd
      next => exact (SourceFile.allDiagnosed_retold k _).mem_iff.mp hd
      next => exact (SourceFile.allDiagnosed_retold k _).mem_iff.mp hd
    rw [Applied.reported, ← read]
    exact (List.mem_filter.mp heard).1

end FileGraph

namespace Engine

open FileGraph

variable {σ : Type} [Workshop σ] {log : List Applied} {links : FileGraph}

theorem applyJob_graph (s : Summary) (e : Engine σ) (j : Job) :
    ∃ r : CompileResult, r.diagnostics = Diagnostic.ofLines j.lines ∧
      (applyJob (s, e) j).2.graph = e.graph.applyResult j.path r :=
  ⟨⟨Diagnostic.ofLines j.lines, j.unhandled ++ (e.writeArtifact j).2.1,
    (e.writeArtifact j).1, (e.writeArtifact j).2.2.wall⟩, rfl, (applyJob_rest s e j).1⟩

theorem applyJobs_attributed (jobs : List Job) (s : Summary) {e : Engine σ}
    (h : e.graph.Attributed log) (order : InPathOrder e.graph.files)
    (same : e.graph.mapFiles SourceFile.linkage = links.mapFiles SourceFile.linkage) :
    (jobs.foldl applyJob (s, e)).2.graph.Attributed (log ++ jobs.map (Applied.mk · links)) := by
  induction jobs generalizing s e log with
  | nil => simpa using h
  | cons j rest ih =>
    obtain ⟨r, read, graph⟩ := applyJob_graph s e j
    have kept : (applyJob (s, e) j).2.graph.mapFiles SourceFile.linkage =
        e.graph.mapFiles SourceFile.linkage := graph ▸ linkage_applyResult e.graph j.path r
    have told : (applyJob (s, e) j).2.graph.Attributed (log ++ [⟨j, links⟩]) :=
      graph ▸ h.applyResult order same j read
    have rest_told := ih (applyJob (s, e) j).1 told (inPathOrder_of_linkage order kept)
      (kept.trans same)
    rwa [List.append_assoc] at rest_told

end Engine

namespace Desk

open FileGraph

variable {σ : Type} [Workshop σ] {R : Rules} {c d : Desk σ} {log : List Applied}
  {links : FileGraph} {start : List Event}

/-- A step puts a batch on record, or leaves the graph alone and ends no batch. -/
theorem step_drains (step : Step R c d) :
    (∃ e : Engine σ, c = e.desk .steady true ∧ d = e.applyBatch.2.desk .due true) ∨
      (d.graph = c.graph ∧
        ∃ events, drainedJobs events = [] ∧ d.trace = events ++ c.trace) := by
  cases step with
  | @drain e => exact .inl ⟨e, rfl, rfl⟩
  | tell event quiet =>
    refine .inr ⟨rfl, [event], ?_, rfl⟩
    cases event <;> first | rfl | cases quiet
  | save | refuse | queue | collect | fire | abandon | restrict | edit | take | turn =>
    exact .inr ⟨rfl, [_], rfl, rfl⟩
  | start j now wall launch =>
    refine .inr ⟨rfl, launch.events j.id, ?_, rfl⟩
    cases launch <;> rfl
  | drop =>
    refine .inr ⟨rfl, _, drainedJobs_of_none fun event hevent jobs s ended => ?_, rfl⟩
    obtain ⟨k, -, dropped⟩ := List.mem_map.mp (List.mem_reverse.mp hevent)
    rw [ended] at dropped
    cases dropped
  | _ => exact .inr ⟨rfl, [], rfl, rfl⟩

/-- What is known about the diagnostics of a desk that has come from a trace, with the compiles that
were put on record before it. -/
structure Accounts (log : List Applied) (links : FileGraph) (start : List Event) (d : Desk σ) :
    Prop where
  order : InPathOrder d.graph.files
  same : d.graph.mapFiles SourceFile.linkage = links.mapFiles SourceFile.linkage
  attributed : ∃ events, d.trace = events ++ start ∧
    d.graph.Attributed (log ++ (drainedJobs events).map (Applied.mk · links))

theorem step_accounts (step : Step R c d) (h : Accounts log links start c) :
    Accounts log links start d := by
  obtain ⟨events, trace, attributed⟩ := h.attributed
  have kept := step_links step
  refine ⟨inPathOrder_of_linkage h.order kept, kept.trans h.same, ?_⟩
  rcases step_drains step with ⟨e, rfl, rfl⟩ | ⟨graph, new, silent, grown⟩
  · obtain ⟨deeds, after, site, said, -, -, desk⟩ := e.applyBatch_desk .due true
    have told : e.applyBatch.2.trace = .drained e.batchJobs e.applyBatch.1 :: (deeds ++ e.trace) :=
      congrArg Desk.trace desk
    have none_ : drainedJobs deeds = [] := drainedJobs_of_none fun event hevent jobs s ended => by
      have deed := said event hevent
      rw [ended] at deed
      cases deed
    have batch := Engine.applyJobs_attributed (e := { e with jobs := [], abandoned := [] })
      e.batchJobs {} attributed h.order h.same
    refine ⟨.drained e.batchJobs e.applyBatch.1 :: (deeds ++ events), ?_, ?_⟩
    · change e.applyBatch.2.trace = _
      rw [told, show e.trace = events ++ start from trace]
      simp
    · rw [drainedJobs, drainedJobs_append, none_, List.append_nil, List.map_append,
        ← List.append_assoc]
      exact batch
  · refine ⟨new ++ events, by rw [grown, trace, List.append_assoc], ?_⟩
    rw [graph, drainedJobs_append, silent, List.append_nil]
    exact attributed

end Desk

namespace Engine

open FileGraph

variable {σ : Type} [Workshop σ]

/-- The compiles that one call puts on record. -/
def appliedIn (e : Engine σ) (a : Act σ) : List Applied :=
  ((drainedJobs (e.act a).trace).drop (drainedJobs e.trace).length).map
    (Applied.mk · (e.act a).graph)

/-- The compiles that a run puts on record, in order. -/
def applied (e : Engine σ) : List (Act σ) → List Applied
  | [] => []
  | a :: rest => e.appliedIn a ++ (e.act a).applied rest

theorem act_attributed {e : Engine σ} {log : List Applied} (a : Act σ)
    (h : e.graph.Attributed log) (order : InPathOrder e.graph.files) :
    (e.act a).graph.Attributed (log ++ e.appliedIn a) := by
  have course := act_course Rules.free_lenient (e.allows_free a)
  have blank (p : Path) : ReportedBy (lastSettling log p) [] := fun _ hd => nomatch hd
  obtain ⟨graph, site, events, quiet, looked⟩ := e.look_desk .steady a
  have trace : (e.look a).trace = events ++ e.trace := congrArg Desk.trace looked
  have silent : drainedJobs events = [] :=
    drainedJobs_of_none fun event hevent jobs s ended => by
      have still := quiet event hevent
      rw [ended] at still
      cases still
  have accounts : Desk.Accounts log (e.act a).graph e.trace ((e.look a).desk .steady true) := by
    refine ⟨?_, (Desk.course_links course).symm, events, trace, ?_⟩
    · exact look_graph (P := fun g => InPathOrder g.files)
        (fun p _ => refresh_inPathOrder order e.site p) (rebuild_inPathOrder order e.site) order
    · rw [silent, List.map_nil, List.append_nil]
      exact look_graph (P := fun g => g.Attributed log)
        (fun p _ => Says.refresh blank h e.site p) (Says.rebuild blank h e.site) h
  obtain ⟨new, grown, attributed⟩ :=
    (Desk.course_preserves Desk.step_accounts course accounts).attributed
  have mine : (drainedJobs (e.act a).trace).drop (drainedJobs e.trace).length =
      drainedJobs new := by
    rw [show (e.act a).trace = new ++ e.trace from grown, drainedJobs_append]
    exact List.drop_left
  rw [appliedIn, mine]
  exact attributed

theorem run_attributed {e : Engine σ} {log : List Applied} (acts : List (Act σ))
    (h : e.graph.Attributed log) (order : InPathOrder e.graph.files) :
    (e.run acts).graph.Attributed (log ++ e.applied acts) := by
  induction acts generalizing e log with
  | nil =>
    rw [applied, List.append_nil]
    exact h
  | cons a rest ih =>
    have later := ih (act_attributed a h order) (act_inPathOrder a order)
    rwa [List.append_assoc] at later

/-- Everything that is said about a file was reported by the last compile that settled it: one of
the file itself, or of the master that was its primary master when the compile was put on record. If
these are exactly the compiles of its present primary master, it is the last one of those. -/
theorem run_diagnostics_origin {graph : FileGraph} {options : EngineOptions} {site : σ}
    {dawn : Nat} (order : InPathOrder graph.files)
    (silent : ∀ f ∈ graph.files, f.allDiagnosed = []) (acts : List (Act σ)) :
    let log := (fresh graph options site dawn).applied acts
    ∀ f ∈ ((fresh graph options site dawn).run acts).graph.files,
      ReportedBy (lastSettling log f.path) f.allDiagnosed ∧
        ∀ m, f.primaryMaster? = some m →
          (∀ v ∈ log, v.settles f.path = (v.job.path == m)) → f.FromOwner log := by
  intro log f hf
  have blank : graph.Attributed [] := fun k hk d hd => by
    rw [silent k hk] at hd
    cases hd
  have reported : ReportedBy (lastSettling log f.path) f.allDiagnosed :=
    run_attributed acts blank order f hf
  refine ⟨reported, fun m owner settled d hd => ⟨m, owner, ?_⟩⟩
  have same : lastSettling log f.path = lastOf log m := by
    rw [lastSettling, lastOf, List.filter_congr settled]
  rw [← same]
  exact reported d hd

/-- A master whose part is found faulty. -/
def faultyGraph : FileGraph :=
  FileGraph.relink
    { root := .ofText "/story"
      options := { extension := "ink" }
      files := [{ path := .ofText "part.ink" },
        { path := .ofText "z.ink", rawIncludes := ["part.ink"] }] }

/-- Their files, and what the compiler says about the part. -/
def faultySite : Sandbox where
  disk := (MemoryDisk.empty.addFile (.ofText "/story/part.ink") .empty).addFile
    (.ofText "/story/z.ink") "INCLUDE part.ink".toUTF8
  scripts := [(.ofText "z.ink", .reject ["ERROR: 'part.ink' line 1: broken"])]

/-- The master is compiled. Later another one appears that includes the part, too. -/
def lateOwner : List (Act Sandbox) :=
  [.compileFile (.ofText "z.ink") false, .poll 0,
    .siteChanged (faultySite.mapDisk
      (·.addFile (.ofText "/story/a.ink") "INCLUDE part.ink".toUTF8)),
    .sourceChanged (.ofText "a.ink")]

/-- Whether an error is on record for a file of whose primary master there was no compile. -/
def bearsStrayError (log : List Applied) (f : SourceFile) : Bool :=
  !f.errors.isEmpty && f.primaryMaster?.any fun m => (lastOf log m).isNone

theorem not_fromOwner_of_stray {log : List Applied} {f : SourceFile}
    (stray : bearsStrayError log f = true) : ¬ f.FromOwner log := by
  obtain ⟨some_, none_⟩ := Bool.and_eq_true_iff.mp stray
  obtain ⟨m, owner, unheard⟩ := (Option.any_eq_true _ _).mp none_
  obtain ⟨d, rest, errors⟩ := List.exists_cons_of_ne_nil (l := f.errors) (by simpa using some_)
  intro fromOwner
  have hd : d ∈ f.allDiagnosed := by simp [SourceFile.allDiagnosed, errors]
  obtain ⟨m', owner', v, last, -⟩ := fromOwner d hd
  obtain rfl := Option.some.inj (owner.symm.trans owner')
  rw [last] at unheard
  cases unheard

/-- The part belongs to the new master now, of which there was no compile yet, and still bears the
error. -/
theorem late_owner_inherits_error :
    let start := fresh faultyGraph { compileOnChange := false } faultySite 0
    ¬ ∀ f ∈ (start.run lateOwner).graph.files, f.FromOwner (start.applied lateOwner) := by
  intro start all
  have stray : (start.run lateOwner).graph.files.any
      (bearsStrayError (start.applied lateOwner)) = true := by decide +kernel
  obtain ⟨f, hf, stray⟩ := List.any_eq_true.mp stray
  exact not_fromOwner_of_stray stray (all f hf)

/-- The error on the part comes from the compile that settled the part. -/
theorem late_owner_origin :
    let start := fresh faultyGraph { compileOnChange := false } faultySite 0
    let log := start.applied lateOwner
    (start.run lateOwner).graph.files.map (fun f =>
        (f.path.text, f.masters.map Path.text, f.errors.map Diagnostic.text)) =
      [("a.ink", ["a.ink"], []), ("part.ink", ["a.ink", "z.ink"], ["error: part.ink:1: broken"]),
        ("z.ink", ["z.ink"], [])] ∧
      ∀ f ∈ (start.run lateOwner).graph.files,
        ReportedBy (lastSettling log f.path) f.allDiagnosed := by
  have order : InPathOrder faultyGraph.files := by
    unfold InPathOrder
    decide +kernel
  exact ⟨by decide +kernel, fun f hf =>
    (run_diagnostics_origin order (by decide +kernel) lateOwner f hf).1⟩

end Engine

end StoryBuild
