import StoryBuild.Proofs.Outcomes

namespace StoryBuild

/-- Whether a path is a name, or ends in it after a slash. Backslashes count as slashes. -/
def Path.answersTo (p : Path) (name : String) : Bool :=
  let text := (slashed p.text).toList
  text == (slashed name).toList || ('/' :: (slashed name).toList).isSuffixOf text

theorem Path.answersTo_of_literal {p : Path} {name : String}
    (literal : slashed name = slashed p.text) : p.answersTo name = true := by
  simp [answersTo, literal]

/-- A path of a list that fits is the first one that fits exactly if none in front of it does. -/
theorem find?_eq_some_iff_front {paths : List Path} {p : Path} {fits : Path → Bool}
    (hp : p ∈ paths) (alone : ∀ q ∈ paths, q.parts = p.parts → q = p) (fit : fits p = true) :
    paths.find? fits = some p ↔ ∀ q ∈ paths.takeWhile (fun q => !(q == p)), fits q = false := by
  induction paths with
  | nil => cases hp
  | cons q rest ih =>
    by_cases here_ : (q == p) = true
    · obtain rfl := alone q List.mem_cons_self (Path.beq_iff.mp here_)
      rw [List.find?_cons_of_pos fit, List.takeWhile_cons_of_neg (by simp [here_])]
      exact iff_of_true rfl nofun
    · have later : p ∈ rest := (List.mem_cons.mp hp).resolve_left fun same =>
        here_ (Path.beq_iff.mpr (same ▸ rfl))
      have others := ih later fun x hx => alone x (List.mem_cons_of_mem q hx)
      rw [List.takeWhile_cons_of_pos (by simp [here_]), List.forall_mem_cons]
      cases first : fits q with
      | true =>
        rw [List.find?_cons_of_pos first]
        refine iff_of_false (fun same => ?_) fun none_ => nomatch none_.1
        exact here_ (Path.beq_iff.mpr (Option.some.inj same ▸ rfl))
      | false =>
        rw [List.find?_cons_of_neg (by simp [first]), others]
        exact (and_iff_right rfl).symm

namespace FileGraph

variable {g : FileGraph} {f k : SourceFile} {m : Path} {name : String} {d : Diagnostic}
  {r : CompileResult}

/-- Whether a name leads from the directory of a master to no file of its family. -/
def LeadsNowhere (g : FileGraph) (m : Path) (name : String) : Prop :=
  ∀ t, m.dirOf.resolveInclude name = some t → (g.family m).any (· == t) = false

theorem familyFile?_of_nowhere (nowhere : g.LeadsNowhere m name) :
    familyFile? m (g.family m) name = (g.family m).find? (·.answersTo name) := by
  have none_ : (m.dirOf.resolveInclude name).filter
      (fun p => (g.family m).any (· == p)) = none := by
    refine Option.filter_eq_none_iff.mpr fun t named => ?_
    rw [nowhere t named]
    exact Bool.false_ne_true
  unfold familyFile?
  dsimp only
  rw [none_]
  rfl

section Owned

variable (owned : g.Owned) (order : InPathOrder g.files) (master : g.isMaster m = true)

include owned order master

/-- What names a file of the family is put on it if the master is the first of its masters. -/
theorem Owned.ownerOf_eq (hk : k ∈ g.files) (inside : (g.family m).any (· == k.path) = true)
    (named : d.file.bind (familyFile? m (g.family m)) = some k.path) :
    g.ownerOf m (g.family m) d = if k.isOwnedBy m then k.path else m := by
  have speaks : g.speaksFor m k.path = k.isOwnedBy m := by
    have settles := owned.covers_eq order master hk
    rw [covers, inside, Bool.true_and] at settles
    rw [speaksFor, file_of_mem order hk, Option.any_some]
    exact settles
  rw [ownerOf, named, Option.filter_some, speaks]
  split <;> rfl

/-- A diagnostic stands on the one file that it is put on, of those that the compile speaks for. -/
theorem Owned.told_iff (told : d ∈ r.diagnostics) {j : SourceFile}
    (hj : j ∈ (g.applyResult m r).files) (own : j.isOwnedBy m = true) :
    d ∈ j.allDiagnosed ↔ (j.path == g.ownerOf m (g.family m) d) = true := by
  obtain ⟨k, rfl, settles⟩ := owned.mem_applyResult order master r hj own
  have heard : d ∈ (g.recordAfter m r k).allDiagnosed ↔ d ∈ g.heard m r.diagnostics k := by
    rw [recordAfter_of_covers r settles]
    split <;> exact (SourceFile.allDiagnosed_retold k _).mem_iff
  rw [heard, recordAfter_path]
  exact List.mem_filter.trans (and_iff_right told)

end Owned

/-- A name that is the whole path of a file of the family, and that does not lead to a file of the
family from the directory of the master, is taken for the first file of the family that answers to
it. That is the file itself exactly if no file before it in the family answers to its path. What is
reported with the name stands on the file that it is taken for, if the master is the first of its
masters, and otherwise on the master. -/
theorem literal_name_taken_for_first (owned : g.Owned) (order : InPathOrder g.files)
    (master : g.isMaster m = true) (hf : f ∈ g.files)
    (member : (g.family m).any (· == f.path) = true)
    (literal : slashed name = slashed f.path.text) (nowhere : g.LeadsNowhere m name) :
    ∃ k ∈ g.files, familyFile? m (g.family m) name = some k.path ∧
      (g.family m).find? (·.answersTo name) = some k.path ∧
      (k = f ↔ ∀ p ∈ (g.family m).takeWhile (fun p => !(p == f.path)),
        p.answersTo name = false) ∧
      ∀ (r : CompileResult) (d : Diagnostic), d ∈ r.diagnostics → d.file = some name →
        (∀ j ∈ (g.applyResult m r).files, j.isOwnedBy m = true →
          (d ∈ j.allDiagnosed ↔ (j.path == if k.isOwnedBy m then k.path else m) = true)) ∧
        ∀ j ∈ g.files, j.isOwnedBy m = false → j ∈ (g.applyResult m r).files := by
  have alone : ∀ p ∈ g.family m, p.parts = f.path.parts → p = f.path := by
    intro p hp same
    obtain ⟨j, leads, rfl⟩ := mem_reach.mp hp
    rw [order.unique leads.mem hf same]
  obtain ⟨p, hp, same⟩ := List.any_eq_true.mp member
  have inside : f.path ∈ g.family m := alone p hp (Path.beq_iff.mp same) ▸ hp
  have answers : f.path.answersTo name = true := Path.answersTo_of_literal literal
  obtain ⟨q, first⟩ := Option.isSome_iff_exists.mp
    (List.isSome_find?.trans (List.any_eq_true.mpr ⟨f.path, inside, answers⟩) :
      ((g.family m).find? (·.answersTo name)).isSome = true)
  have taken : familyFile? m (g.family m) name = some q :=
    (familyFile?_of_nowhere nowhere).trans first
  obtain ⟨k, leads, rfl⟩ := mem_reach.mp (List.mem_of_find?_eq_some first)
  have hk := leads.mem
  refine ⟨k, hk, taken, first, ?_, fun r d told names => ⟨fun j hj own => ?_, ?_⟩⟩
  · rw [← find?_eq_some_iff_front inside alone answers, first, Option.some.injEq]
    exact ⟨fun same => same ▸ rfl, fun same => order.unique hk hf (same ▸ rfl)⟩
  · have within : (g.family m).any (· == k.path) = true := familyFile?_mem taken
    rw [owned.told_iff order master told hj own,
      owned.ownerOf_eq order master hk within (by rw [names, Option.bind_some, taken])]
  · exact (owned.settlesItsOwn order master r).others

/-- A master that includes two parts of one name from elsewhere. -/
def namesakes : FileGraph where
  root := .ofText "/story"
  options := { extension := "ink" }
  files := [
    { path := .ofText "a/main.ink", includes := [.ofText "x/part.ink", .ofText "part.ink"] },
    { path := .ofText "part.ink" }, { path := .ofText "x/part.ink" }]

/-- A compile that finds fault with the part at the top. -/
def topPartFaulty : CompileResult where
  diagnostics := [⟨.error, some "part.ink", some 1, "broken"⟩]
  unhandled := []
  artifact := none
  time := 5

/-- The fault stands on the other part. -/
theorem namesake_gets_fault :
    let g := namesakes.rebuildOwnership
    let m := Path.ofText "a/main.ink"
    ((g.applyResult m topPartFaulty).files.map fun f => (f.path.text, f.errors.map (·.message))) =
        [("a/main.ink", []), ("part.ink", []), ("x/part.ink", ["broken"])] ∧
      ∃ k ∈ g.files, k.path.text ≠ "part.ink" ∧
        familyFile? m (g.family m) "part.ink" = some k.path ∧
        ∀ j ∈ (g.applyResult m topPartFaulty).files, j.isOwnedBy m = true →
          ∀ d ∈ topPartFaulty.diagnostics,
            (d ∈ j.allDiagnosed ↔ (j.path == if k.isOwnedBy m then k.path else m) = true) := by
  intro g m
  have order : InPathOrder g.files :=
    rebuildOwnership_inPathOrder _ (by unfold InPathOrder; decide +kernel)
  have part : ∃ f ∈ g.files, f.path.text = "part.ink" ∧
      (g.family m).any (· == f.path) = true := by decide +kernel
  obtain ⟨f, hf, text, member⟩ := part
  have away : (m.dirOf.resolveInclude "part.ink").all
      (fun t => !(g.family m).any (· == t)) = true := by decide +kernel
  have nowhere : g.LeadsNowhere m "part.ink" := by
    intro t named
    rw [named] at away
    simpa using away
  obtain ⟨k, hk, taken, -, -, put⟩ := literal_name_taken_for_first (owned_rebuildOwnership _) order
    (by decide +kernel) hf member (by rw [text]) nowhere
  have other : (familyFile? m (g.family m) "part.ink").map Path.text = some "x/part.ink" := by
    decide +kernel
  refine ⟨by decide +kernel, k, hk, ?_, taken, fun j hj own d told => ?_⟩
  · rw [taken, Option.map_some, Option.some.injEq] at other
    rw [other]
    decide
  · have names : d.file = some "part.ink" := by
      obtain rfl := List.mem_singleton.mp told
      rfl
    exact (put topPartFaulty d told names).1 j hj own

end FileGraph

end StoryBuild
