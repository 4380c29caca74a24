import StoryBuild.Proofs.DiskHistory
import StoryBuild.Proofs.Tending

namespace StoryBuild

namespace FileGraph

section Reading

variable {σ : Type} [Storage σ] {g : FileGraph} {s : σ} {P : Path → Option Nat → Prop}

variable (steady : Storage.Steady s) (blank : ∀ q, P q none)
  (read : ∀ p q time, P q time → P q (Storage.time? s p <|> time))

include steady

theorem reparseAll_dated (read : ∀ p q time, P q time → P q (Storage.time? s p <|> time))
    (paths : List Path) (old : ∀ f ∈ g.files, P f.path f.modified) :
    ∀ f ∈ (g.reparseAll s paths).1.files, P f.path f.modified := by
  refine (reparseAll_preserves (M := fun new s' => s' = s ∧
    ∀ f ∈ new.files, P f.path f.modified) ?_ ⟨rfl, old⟩ paths).2
  rintro new _ p ⟨rfl, old⟩
  exact ⟨steady (new.absolute p), reparse_dated old (read (new.absolute p))⟩

include blank read

theorem importAll_dated (paths : List Path) (found : Found)
    (old : ∀ f ∈ g.files, P f.path f.modified) :
    (paths.foldl importFile (g, s, found)).2.1 = s ∧
      ∀ f ∈ (paths.foldl importFile (g, s, found)).1.files, P f.path f.modified := by
  refine importAll_preserves (M := fun new s' => s' = s ∧ ∀ f ∈ new.files, P f.path f.modified)
    ?_ ?_ ⟨rfl, old⟩ found
  · rintro new _ s' p cause ⟨rfl, old⟩ - missing
    obtain ⟨same, -⟩ := modifiedTwice_steady steady (new.absolute p)
    rw [missing] at same
    exact ⟨same, old⟩
  · rintro new _ s' p t ⟨rfl, old⟩ - untracked there
    obtain ⟨same, time⟩ := modifiedTwice_steady steady (new.absolute p)
    rw [there] at same time
    refine ⟨same, fun f hf => ?_⟩
    rcases (mem_insert untracked).mp hf with rfl | hf
    · have dated := read (new.absolute p) p none (blank p)
      rwa [← time] at dated
    · exact old f hf

/-- What holds of the paths and times of all records holds after a rebuild, if it holds of a path
without a time and with every time that can be read. -/
theorem rebuild_dated (old : ∀ f ∈ g.files, P f.path f.modified) :
    ∀ f ∈ (g.rebuild s).2.graph.files, P f.path f.modified := by
  have kept : ∀ f ∈ (g.prune s).files, P f.path f.modified :=
    fun f hf => old f (List.mem_filter.mp hf).1
  unfold rebuild
  dsimp only
  split
  next => exact kept
  next after s' found discovered =>
    obtain ⟨paths, -, state⟩ := discover_ok discovered
    obtain ⟨same, imported⟩ := importAll_dated steady blank read paths {} kept
    rw [state] at same imported
    obtain rfl : s' = s := same
    intro f hf
    obtain ⟨k, hk, own⟩ := mem_of_view (own_relink _) hf
    have path : k.path = f.path := (congrArg SourceFile.path own :)
    have time : k.modified = f.modified := (congrArg SourceFile.modified own :)
    rw [← path, ← time]
    exact reparseAll_dated steady read after.paths imported k hk

end Reading

variable {g : FileGraph} {s : Sandbox}

/-- A rebuild reads times from the disk, where none is ahead of the clock. -/
theorem Timed.rebuild (h : g.Timed s) : (g.rebuild s).2.graph.Timed s := by
  refine ⟨h.timely, rebuild_dated (P := fun _ time => ∀ t, time = some t → t ≤ s.disk.clock)
    (Sandbox.steady h.timely) (fun _ => nofun) (fun p _ time old t there => ?_) h.recorded⟩
  rw [Sandbox.time_sandbox h.timely] at there
  cases found : s.disk.timeAt p.parts with
  | some read =>
    rw [found] at there
    cases there
    exact h.timely.past _ _ found
  | none =>
    rw [found] at there
    exact old t there

theorem build_timed {root : Path} {options : GraphOptions} {reading : Reading Sandbox}
    (built : build root options s = .ok reading) (timely : s.disk.Timely) :
    reading.graph.Timed reading.storage := by
  have graph : (empty root options).Timed s := ⟨timely, nofun⟩
  have read := graph.rebuild
  have same : reading.storage = s := by
    have kept := rebuild_keeps (P := (· = s)) (fun s' q same => by rw [same, Sandbox.steady timely])
      (empty root options) rfl
    rwa [rebuild_of_build built] at kept
  rw [rebuild_of_build built] at read
  rwa [same]

end FileGraph

namespace Engine

variable {e : Engine Sandbox}

/-- A look at a disk that can be read leaves it as it is. -/
theorem look_site (timely : e.site.disk.Timely) {a : Act Sandbox} (inside : a.IsCall) :
    (e.look a).site = e.site := by
  refine look_keeps (P := (· = e.site)) (fun s q same => ?_) (fun site same => ?_) rfl
  · rw [same, Sandbox.steady timely]
  · rw [same] at inside
    exact inside.elim

theorem look_timed (h : e.graph.Timed e.site) {a : Act Sandbox} (inside : a.IsCall) :
    (e.look a).graph.Timed (e.look a).site := by
  rw [look_site h.timely inside]
  exact look_graph (P := fun g => g.Timed e.site) (fun p _ => h.refresh p) h.rebuild h

theorem act_timed (h : e.graph.Timed e.site) {a : Act Sandbox} (inside : a.IsCall) :
    (e.act a).graph.Timed (e.act a).site :=
  Desk.course_preserves (P := fun d => d.graph.Timed d.site) Desk.step_timed
    (act_course Rules.free_lenient (e.allows_free a)) (look_timed h inside)

/-- Nothing that happens around an engine puts a time on record ahead of the clock. -/
theorem happen_timed (h : e.graph.Timed e.site) (x : Happening) :
    (e.happen x).graph.Timed (e.happen x).site := by
  cases x with
  | write p content => exact h.later (h.timely.addFile p content) (Nat.le_succ _)
  | touch p => exact h.later (h.timely.touch p) (MemoryDisk.clock_touch p ▸ Nat.le_succ _)
  | delete p =>
    have clock : (e.site.disk.remove p).clock = e.site.disk.clock := by rw [MemoryDisk.remove_eq]
    exact h.later (h.timely.remove p) (Nat.le_of_eq clock.symm)
  | refuse p times => exact h.later ⟨h.timely.faultless, h.timely.past⟩ (Nat.le_refl _)
  | script master s => exact ⟨h.timely, h.recorded⟩
  | call a inside => exact act_timed h inside

end Engine

end StoryBuild
