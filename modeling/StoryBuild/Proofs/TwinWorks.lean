import StoryBuild.Graph.Staleness
import StoryBuild.Proofs.ArtifactTimes
import StoryBuild.Proofs.Reachability
import StoryBuild.Proofs.TwinReadings

namespace StoryBuild.FileGraph

variable {κ : Type} {g g' : FileGraph} {s t : Trial κ} {times : Nat → Nat} {place : List Part}

/-- What is known of the time of a file is newer in both or in none. -/
theorem Alike.newer_iff (h : Alike times place g g' s t) (read : Option Nat) (p : Path)
    (time : Nat) :
    (read.map times <|> (g'.file? p).bind SourceFile.modified).any (times time < ·) =
      (read <|> (g.file? p).bind SourceFile.modified).any (time < ·) := by
  have order := h.sites.disks.order
  rw [h.graphs, retimed_file]
  cases read with
  | some n => simp [order.lt_iff_lt]
  | none =>
    cases g.file? p with
    | none => rfl
    | some f =>
      cases recorded : f.modified with
      | none => simp [SourceFile.retimed, recorded]
      | some n => simp [SourceFile.retimed, recorded, order.lt_iff_lt]

theorem Alike.anyNewer (h : Alike times place g g' s t) {l : List Path}
    (off : ∀ p ∈ l, (g.absolute p).parts ≠ place) (time : Nat) :
    (g'.anyNewer (times time) t l).1 = (g.anyNewer time s l).1 ∧
      Alike times place g g' (g.anyNewer time s l).2 (g'.anyNewer (times time) t l).2 := by
  induction l generalizing s t with
  | nil => exact ⟨rfl, h⟩
  | cons p rest ih =>
    have read := h.modified (off p List.mem_cons_self)
    have others := fun q hq => off q (List.mem_cons_of_mem p hq)
    unfold FileGraph.anyNewer
    dsimp only
    rw [h.absolute_eq]
    generalize Storage.modified s (g.absolute p) = r, Storage.modified t (g.absolute p) = r' at read
    obtain ⟨same, alike⟩ : ((r'.1.toOption <|> (g'.file? p).bind SourceFile.modified).any
        (times time < ·)) = ((r.1.toOption <|> (g.file? p).bind SourceFile.modified).any
        (time < ·)) ∧ Alike times place g g' r.2 r'.2 := by
      cases read with
      | known alike => exact ⟨h.newer_iff (some _) p time, alike⟩
      | unknown _ _ alike => exact ⟨h.newer_iff none p time, alike⟩
    rw [same]
    split
    next => exact ⟨rfl, alike⟩
    next => exact ih alike others

/-- Where a family is known, it is tracked. -/
theorem isTracked_of_mem_family {m p : Path} (hp : p ∈ g.family m) : g.isTracked p = true := by
  obtain ⟨f, leads, rfl⟩ := mem_reach.mp hp
  exact isTracked_iff.mpr ⟨f, leads.mem, rfl⟩

theorem Alike.isStale (h : Alike times place g g' s t) (off : g.PathsKeepOff place)
    {f : SourceFile} (hf : f ∈ g.files) :
    (g'.isStale t (f.retimed times)).1 = (g.isStale s f).1 ∧
      Alike times place g g' (g.isStale s f).2 (g'.isStale t (f.retimed times)).2 := by
  have apart : (g.absolute (g.artifactPath f.path)).parts ≠ place := fun same =>
    (off f.path (List.mem_map_of_mem hf)).2 (same ▸ List.prefix_refl _)
  have read := h.modified apart
  have family : g'.family f.path = g.family f.path := by rw [h.graphs, retimed_family]
  unfold FileGraph.isStale
  rw [SourceFile.retimed_unhandled, SourceFile.retimed_path, artifact_of_place h.same_place, family]
  split
  next => exact ⟨rfl, h⟩
  next =>
    generalize Storage.modified s _ = r, Storage.modified t _ = r' at read
    cases read with
    | unknown _ _ alike => exact ⟨rfl, alike⟩
    | @known _ _ time alike =>
      exact alike.anyNewer (fun p hp =>
        (keepsOff_of_tracked off (isTracked_of_mem_family hp)).1) time

theorem Alike.staleAmong (h : Alike times place g g' s t) (off : g.PathsKeepOff place)
    {l : List SourceFile} (hl : ∀ f ∈ l, f ∈ g.files) :
    (g'.staleAmong t (l.map (SourceFile.retimed times))).1 = (g.staleAmong s l).1 ∧
      Alike times place g g' (g.staleAmong s l).2
        (g'.staleAmong t (l.map (SourceFile.retimed times))).2 := by
  induction l generalizing s t with
  | nil => exact ⟨rfl, h⟩
  | cons f rest ih =>
    obtain ⟨same, alike⟩ := h.isStale off (hl f List.mem_cons_self)
    obtain ⟨others, alike⟩ := ih alike fun k hk => hl k (List.mem_cons_of_mem _ hk)
    rw [List.map_cons]
    unfold FileGraph.staleAmong
    dsimp only
    rw [same, others]
    exact ⟨rfl, alike⟩

theorem Alike.staleMasters (h : Alike times place g g' s t) (off : g.PathsKeepOff place) :
    (g'.staleMasters t).1 = (g.staleMasters s).1 ∧
      Alike times place g g' (g.staleMasters s).2 (g'.staleMasters t).2 := by
  have masters : g'.masterFiles = g.masterFiles.map (SourceFile.retimed times) := by
    rw [h.graphs, retimed_masterFiles]
  rw [FileGraph.staleMasters, FileGraph.staleMasters, masters]
  exact h.staleAmong off fun f hf => (List.mem_filter.mp hf).1

/-- The check against the disk finds the same. -/
theorem Alike.validate (h : Alike times place g g' s t) (off : g.KeepsOff place)
    (names : g.NamesMissing) : g'.validate t = g.validate s := by
  have files : g'.files = g.files.map (SourceFile.retimed times) := by
    rw [h.graphs]
    rfl
  have file (p : Path) : g'.file? p = (g.file? p).map (SourceFile.retimed times) := by
    rw [h.graphs, retimed_file]
  unfold FileGraph.validate
  rw [files, List.flatMap_map]
  refine List.flatMap_congr fun f hf => ?_
  have there : Storage.isFile t (g'.absolute f.path) = Storage.isFile s (g.absolute f.path) := by
    rw [h.absolute_eq, h.isFile (off.sources f hf)]
  have edges : g'.edgeProblem? f.path = g.edgeProblem? f.path := by
    funext target
    rw [edgeProblem?, edgeProblem?, file]
    cases g.file? target <;> rfl
  have parents : g'.parentProblem? f.path = g.parentProblem? f.path := by
    funext parent
    rw [parentProblem?, parentProblem?, file, Option.any_map]
    rfl
  have issues : f.issues.filterMap (g'.issueProblem? t f.path) =
      f.issues.filterMap (g.issueProblem? s f.path) := by
    refine List.filterMap_congr fun issue hissue => ?_
    cases issue with
    | missing raw =>
      rw [issueProblem?, issueProblem?]
      cases named : f.path.dirOf.resolveInclude raw with
      | none => rfl
      | some target =>
        have away := off.includes f hf raw (names f hf raw hissue) target named
        dsimp only
        rw [h.absolute_eq, h.isFile away]
    | _ => rfl
  unfold problemsAt
  rw [SourceFile.retimed_path, there, edges, parents, SourceFile.retimed_includes,
    SourceFile.retimed_parents, SourceFile.retimed_issues, issues]

theorem Alike.requiresRebuild (h : Alike times place g g' s t) (off : g.KeepsOff place)
    (names : g.NamesMissing) : g'.requiresRebuild t = g.requiresRebuild s := by
  rw [FileGraph.requiresRebuild, FileGraph.requiresRebuild, h.validate off names]

end StoryBuild.FileGraph

namespace StoryBuild

/-- A script that does not look at the disk. -/
def Script.IsClosed : Script → Prop
  | .collect => False
  | .hang _ _ next => next.IsClosed
  | _ => True

/-- A compile that does not look at the disk any more. -/
def Progress.IsClosed : Progress → Prop
  | .waiting _ _ next => next.IsClosed
  | _ => True

/-- A worker that does not look at the disk any more. -/
def WorkerState.IsClosed : WorkerState → Prop
  | .waiting _ _ next => next.IsClosed
  | _ => True

/-- A compiler that goes by its requests alone. What it does may depend on the requests before. -/
class Compiler (κ : Type) where
  compile : κ → Request → Script × κ
  handOver : κ → Request → Handover := fun _ _ => .taken
  proceed : κ → Request → Progress → Progress × κ
  compile_closed : ∀ c r, (compile c r).1.IsClosed
  proceed_closed : ∀ c r progress, progress.IsClosed → (proceed c r progress).1.IsClosed

section Play

variable {σ τ : Type} [Storage σ] [Storage τ] {script : Script} {r : Request}

theorem Progress.IsClosed.worker {progress : Progress} (closed : progress.IsClosed) :
    (WorkerState.ofProgress progress).IsClosed := by
  cases progress with
  | waiting => exact closed
  | _ => trivial

end Play

variable {κ : Type}

/-- Another compiler in the same place. -/
def Trial.withCompiler (s : Trial κ) (c : κ) : Trial κ :=
  { s with compiler := c }

instance [Compiler κ] : Workshop (Trial κ) where
  perform s r :=
    ((Compiler.compile s.compiler r).1, s.withCompiler (Compiler.compile s.compiler r).2)
  handOver s r := Compiler.handOver s.compiler r
  meanwhile s r progress :=
    ((Compiler.proceed s.compiler r progress).1,
      s.withCompiler (Compiler.proceed s.compiler r progress).2)

namespace FileGraph

open MemoryDisk (Firm)

variable {g g' : FileGraph} {s t : Trial κ} {times : Nat → Nat} {place a : List Part} {q : Path}

section Write

variable (absolute : place.head? = some .root) (rooted : g.root.parts.head? = some .root)

/-- The disks may go on, if their times do. -/
theorem Alike.go_on {s' t' : Trial κ} (h : Alike times place g g' s t) {times' : Nat → Nat}
    (sites : s'.Twins times' g.root.parts place t') (clock : s.disk.clock ≤ s'.disk.clock)
    (old : ∀ n ≤ s.disk.clock, times' n = times n)
    (firm : ∀ a, Firm place s.disk a → Firm place s'.disk a) :
    Alike times' place g g' s' t' := by
  refine ⟨?_, sites, fun f hf time there => (h.recorded f hf time there).trans clock,
    firm _ h.rooted, fun f hf => firm _ (h.firm f hf)⟩
  rw [h.graphs]
  refine mapFiles_congr fun f hf => ?_
  rw [SourceFile.retimed, SourceFile.retimed]
  cases recorded : f.modified with
  | none => rfl
  | some n => simp [old n (h.recorded f hf n recorded)]

include absolute rooted

/-- A file away from the place is written on both disks or refused on both. -/
theorem Alike.write (h : Alike times place g g' s t) (away : ¬ place <+: q.parts)
    (bytes : ByteArray) :
    (Storage.write t q bytes).1 = (Storage.write s q bytes).1 ∧
      (∃ times', Alike times' place g g' (Storage.write s q bytes).2 (Storage.write t q bytes).2) ∧
      ∀ a, Firm place s.disk a → Firm place (Storage.write s q bytes).2.disk a := by
  have other : q.parts ≠ place := fun same => away (same ▸ List.prefix_refl _)
  have free {s : Trial κ} (guards : s.guarded.parts = place) : (q == s.guarded) = false := by
    rw [Bool.eq_false_iff]
    intro same
    exact other ((Path.beq_iff.mp same).trans guards)
  have unguarded {s : Trial κ} (guards : s.guarded.parts = place) :
      Storage.write s q bytes =
        ((s.disk.write q bytes).1, { s with disk := (s.disk.write q bytes).2 }) := by
    change s.write q bytes = _
    rw [Trial.write, free guards]
    rfl
  rw [unguarded h.sites.guarded₁, unguarded h.sites.guarded₂]
  have disks := h.sites.disks
  unfold MemoryDisk.write
  rcases MemoryDisk.spendFault_same (disks.writing q.parts other) with
    ⟨none₁, none₂⟩ | ⟨n, some₁, some₂⟩
  · rw [none₁, none₂]
    have firm (a : List Part) (there : Firm place s.disk a) :
        Firm place (s.disk.addFile q bytes) a := there.addFile q bytes
    refine ⟨rfl, ⟨_, h.go_on ⟨disks.write_both absolute rooted (fun below => absurd below away)
      bytes, h.sites.compiler, h.sites.guarded₁, h.sites.guarded₂⟩ (Nat.le_succ _)
      (fun n old => MemoryDisk.later_old old) firm⟩, firm⟩
  · rw [some₁, some₂]
    exact ⟨rfl, ⟨times, h.go_on ⟨disks.refuse_both q n, h.sites.compiler, h.sites.guarded₁,
      h.sites.guarded₂⟩ (Nat.le_refl _) (fun _ _ => rfl) fun _ => id⟩, fun _ => id⟩

/-- The file at the place may be written, or refused, on the second disk only. -/
theorem Alike.write_right (h : Alike times place g g' s t) (here_ : q.parts = place)
    (bytes : ByteArray) : Alike times place g g' s (Storage.write t q bytes).2 := by
  have disks := h.sites.disks
  have written : s.disk.Twins times g.root.parts place (t.disk.write q bytes).2 := by
    unfold MemoryDisk.write
    split
    next faults spent =>
      obtain ⟨n, rfl⟩ := MemoryDisk.spendFault_some spent
      exact disks.refuse_right here_ n
    next => exact disks.write_right absolute rooted here_ bytes
  change Alike times place g g' s (t.write q bytes).2
  unfold Trial.write
  split
  next => exact h.looked ⟨disks, h.sites.compiler, h.sites.guarded₁, h.sites.guarded₂⟩ rfl rfl
  next => exact h.looked ⟨written, h.sites.compiler, h.sites.guarded₁, h.sites.guarded₂⟩ rfl rfl

end Write

end FileGraph

end StoryBuild
