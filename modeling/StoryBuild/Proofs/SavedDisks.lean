import StoryBuild.Proofs.DeskFacts
import StoryBuild.Proofs.TwinDisks

namespace StoryBuild

/-- Whether what is written at a path can be noticed at a place: the place is its own, lies over
it, or is the one for relative paths. -/
def Path.ShowsAt (p : Path) (place : List Part) : Prop :=
  place = p.parts ∨ LiesOver p.parts place ∨ place = [.here]

instance (place a : List Part) : Decidable (LiesOver place a) :=
  inferInstanceAs <| Decidable (a ≠ [] ∧ a <+: place ∧ a ≠ place)

instance (p : Path) (place : List Part) : Decidable (p.ShowsAt place) :=
  inferInstanceAs <| Decidable (place = p.parts ∨ LiesOver p.parts place ∨ place = [.here])

theorem MemoryDisk.readText_addFile {d : MemoryDisk} {p q : Path} (away : ¬ p.ShowsAt q.parts)
    (content : ByteArray) : (d.addFile p content).readText q = d.readText q := by
  simp only [Path.ShowsAt, not_or] at away
  obtain ⟨other, beside, named⟩ := away
  have same : standsAt (d.addFile p content).entries q.parts = standsAt d.entries q.parts := by
    unfold addFile
    dsimp only
    rw [standsAt_link _ _ named, standsAt_putAt, if_neg (Ne.symm other)]
    intro some_ within
    by_contra strict
    exact beside ⟨some_, within, strict⟩
  unfold readText
  rw [lookup_eq, lookup_eq, same]

namespace Sandbox

variable {kept : Option Path} {s s' t t' : Sandbox} {p q : Path} {content : ByteArray}

/-- A place other than that of the snapshot. -/
def Elsewhere (kept : Option Path) (place : List Part) : Prop :=
  ∀ p, kept = some p → p.parts ≠ place

/-- Two disks with the same files and refusals everywhere but in the place of the snapshot. -/
structure AlikeBut (kept : Option Path) (s t : Sandbox) : Prop where
  scripts : t.scripts = s.scripts
  workers : t.workers = s.workers
  contents : ∀ a, Elsewhere kept a → contentAt t.disk.entries a = contentAt s.disk.entries a
  refusals : ∀ a, Elsewhere kept a →
    standsAt t.disk.writeFaults a = standsAt s.disk.writeFaults a

namespace AlikeBut

theorem refl (kept : Option Path) (s : Sandbox) : AlikeBut kept s s :=
  ⟨rfl, rfl, fun _ _ => rfl, fun _ _ => rfl⟩

theorem symm (h : AlikeBut kept s t) : AlikeBut kept t s :=
  ⟨h.scripts.symm, h.workers.symm, fun a away => (h.contents a away).symm,
    fun a away => (h.refusals a away).symm⟩

theorem trans (h : AlikeBut kept s s') (h' : AlikeBut kept s' t) : AlikeBut kept s t :=
  ⟨h'.scripts.trans h.scripts, h'.workers.trans h.workers,
    fun a away => (h'.contents a away).trans (h.contents a away),
    fun a away => (h'.refusals a away).trans (h.refusals a away)⟩

end AlikeBut

theorem write_eq (s : Sandbox) (p : Path) (content : ByteArray) :
    (spendFault p s.disk.writeFaults = none ∧
        Storage.write s p content = (.ok (), s.mapDisk (·.addFile p content))) ∨
      ∃ left, spendFault p s.disk.writeFaults = some left ∧
        Storage.write s p content =
          (.error (.refused p), s.mapDisk fun d => { d with writeFaults := left }) := by
  change _ ∧ ((s.disk.write p content).1, { s with disk := (s.disk.write p content).2 }) = _ ∨
    ∃ left, _ ∧ ((s.disk.write p content).1, { s with disk := (s.disk.write p content).2 }) = _
  unfold MemoryDisk.write
  cases spent : spendFault p s.disk.writeFaults with
  | none => exact .inl ⟨rfl, rfl⟩
  | some left => exact .inr ⟨left, rfl, rfl⟩

/-- What is written on both disks is accepted on both or on none. -/
theorem AlikeBut.write (h : AlikeBut kept s t) (away : Elsewhere kept p.parts)
    (content : ByteArray) :
    (Storage.write t p content).1 = (Storage.write s p content).1 ∧
      AlikeBut kept (Storage.write s p content).2 (Storage.write t p content).2 := by
  have faults := MemoryDisk.spendFault_same (h.refusals p.parts away)
  rcases write_eq s p content with ⟨none_, wrote⟩ | ⟨left, spent, refused⟩
  · rcases write_eq t p content with ⟨-, wrote'⟩ | ⟨left, spent, -⟩
    · rw [wrote, wrote']
      refine ⟨rfl, h.scripts, h.workers, fun a other => ?_, h.refusals⟩
      change contentAt (t.disk.addFile p content).entries a =
        contentAt (s.disk.addFile p content).entries a
      rw [MemoryDisk.contentAt_addFile, MemoryDisk.contentAt_addFile, h.contents a other]
    · simp [none_, spent] at faults
  · rcases write_eq t p content with ⟨none_, -⟩ | ⟨left', spent', refused'⟩
    · simp [none_, spent] at faults
    · rw [refused, refused']
      refine ⟨rfl, h.scripts, h.workers, h.contents, fun a other => ?_⟩
      obtain ⟨n, count, count'⟩ := faults.resolve_left (by simp [spent])
      obtain rfl := Option.some.inj (spent.symm.trans count)
      obtain rfl := Option.some.inj (spent'.symm.trans count')
      change standsAt (putAt p n t.disk.writeFaults) a = standsAt (putAt p n s.disk.writeFaults) a
      rw [standsAt_putAt, standsAt_putAt, h.refusals a other]

/-- A write at the place of the snapshot is no matter elsewhere. -/
theorem alikeBut_write (here_ : kept = some p) (s : Sandbox) (content : ByteArray) :
    AlikeBut kept s (Storage.write s p content).2 := by
  rcases write_eq s p content with ⟨-, wrote⟩ | ⟨left, spent, refused⟩
  · rw [wrote]
    refine ⟨rfl, rfl, fun a other => ?_, fun _ _ => rfl⟩
    exact (MemoryDisk.contentAt_addFile _ _ _ _).trans (if_neg (other p here_))
  · rw [refused]
    refine ⟨rfl, rfl, fun _ _ => rfl, fun a other => ?_⟩
    obtain ⟨n, rfl⟩ := MemoryDisk.spendFault_some spent
    exact (standsAt_putAt ..).trans (if_neg (other p here_))

theorem readText_write (away : ¬ p.ShowsAt q.parts) (s : Sandbox) (content : ByteArray) :
    Storage.readText (Storage.write s p content).2 q = Storage.readText s q := by
  rcases write_eq s p content with ⟨-, wrote⟩ | ⟨left, -, refused⟩
  · rw [wrote]
    exact MemoryDisk.readText_addFile away content
  · rw [refused]
    rfl

/-- A disk after snapshots were written, or refused. -/
def Saves (kept : Option Path) : Sandbox → Sandbox → Prop :=
  Relation.ReflTransGen fun s t => ∃ p content, kept = some p ∧ t = (Storage.write s p content).2

theorem Saves.alike (h : Saves kept s t) : AlikeBut kept s t := by
  induction h with
  | refl => exact .refl kept s
  | tail _ step ih =>
    obtain ⟨p, content, here_, rfl⟩ := step
    exact ih.trans (alikeBut_write here_ _ content)

theorem Saves.readText (h : Saves kept s t)
    (away : ∀ p, kept = some p → ¬ p.ShowsAt q.parts) :
    Storage.readText t q = Storage.readText s q := by
  induction h with
  | refl => rfl
  | tail _ step ih =>
    obtain ⟨p, content, here_, rfl⟩ := step
    exact (readText_write (away p here_) _ content).trans ih

end Sandbox

namespace Desk

variable {R : Rules} {c d : Desk Sandbox}

/-- As long as no batch ends, nothing but snapshots is written. -/
theorem course_saves (course : Course R c d) (open_ : ∀ core, ¬ R.close core) :
    Sandbox.Saves c.options.statePath c.site d.site := by
  have both : d.options = c.options ∧ Sandbox.Saves c.options.statePath c.site d.site := by
    refine course_preserves (P := fun d =>
      d.options = c.options ∧ Sandbox.Saves c.options.statePath c.site d.site) ?_ course
      ⟨rfl, .refl⟩
    rintro a b step ⟨options, saves⟩
    refine ⟨(step_options step).trans options, ?_⟩
    cases step with
    | wander how => cases how <;> exact saves
    | save p kept _ written =>
      exact saves.tail ⟨p, _, options ▸ kept, (congrArg Prod.snd written).symm⟩
    | refuse p kept refused =>
      exact saves.tail ⟨p, _, options ▸ kept, (congrArg Prod.snd refused).symm⟩
    | drain may => exact absurd may (open_ _)
    | _ => exact saves
  exact both.2

end Desk

end StoryBuild
