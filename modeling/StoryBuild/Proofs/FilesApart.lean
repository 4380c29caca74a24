import StoryBuild.Proofs.UpToDate

namespace StoryBuild

/-- Whether no path among some is above another. -/
def Path.Apart (files : List Path) : Prop :=
  ∀ p ∈ files, ∀ q ∈ files, p.parts <+: q.parts → p = q

namespace MemoryDisk

/-- Whether a disk holds no other files below a root than some, and no other directories than
those above these files. -/
structure Holds (root : Path) (d : MemoryDisk) (files : List Path) : Prop where
  base : contentAt d.entries root.parts = none
  file : ∀ p : Path, p.IsNormalized → Storage.isFile d (root.join p) = true → p ∈ files
  dir : ∀ p : Path, p.IsNormalized → Storage.isDir d (root.join p) = true →
    ∃ q ∈ files, p.parts <+: q.parts ∧ p ≠ q

variable {root : Path} {d : MemoryDisk} {e : Edit} {files : List Path}

/-- What is above a normal path is the base or a shorter normal path. -/
theorem mem_above (root : Path) {p q : Path} (normal : p.IsNormalized) (h : q ∈ p.above) :
    (root.join q).parts = root.parts ∨ q.IsNormalized ∧ q.parts <+: p.parts ∧ q ≠ p := by
  obtain ⟨names, _, valid, rfl⟩ := normal.names
  obtain ⟨n, hn, rfl⟩ := List.mem_map.mp h
  have front_valid : ∀ s ∈ names.take n, IsName s := fun s hs => valid s (List.mem_of_mem_take hs)
  have parts := Path.ofNames_parts valid
  have short : n < names.length := by
    rw [List.mem_range, parts, List.length_map] at hn
    exact hn
  have front : Path.ofParts ((Path.ofNames names).parts.take n) = .ofNames (names.take n) := by
    rw [parts, ← List.map_take, Path.ofParts_names]
  rw [front]
  by_cases none_ : names.take n = []
  · left
    rw [Path.join_parts root front_valid, none_]
    simp
  · right
    refine ⟨Path.isNormalized_ofNames none_ front_valid, ?_, ?_⟩
    · rw [Path.ofNames_parts front_valid, parts, List.map_take]
      exact List.take_prefix _ _
    · intro same
      have whole := Path.ofNames_injective front_valid valid (congrArg Path.parts same)
      have length := congrArg List.length whole
      rw [List.length_take] at length
      omega

theorem Holds.admits (h : d.Holds root files) (apart : Path.Apart files)
    (normal : e.path.IsNormalized) (mem : e.path ∈ files) : d.Admits root e := by
  refine ⟨?_, ?_⟩
  · cases is_dir : Storage.isDir d (root.join e.path) with
    | true =>
      obtain ⟨q, hq, within, other⟩ := h.dir e.path normal is_dir
      exact absurd (apart _ mem q hq within) other
    | false =>
      rw [readDir_error is_dir]
      rfl
  · cases e with
    | delete p => trivial
    | write p content =>
      intro q hq
      rw [Bool.eq_false_iff]
      intro file
      rcases mem_above root normal hq with base | ⟨normal_q, within, other⟩
      · rw [isFile_eq, base, h.base] at file
        cases file
      · exact other (apart q (h.file q normal_q file) p mem within)

/-- Deleting a file makes no directory. -/
theorem isDir_remove (some_root : root.parts ≠ []) {p q : Path} (normal : q.IsNormalized)
    (h : Storage.isDir (d.remove (root.join q)) (root.join p) = true) :
    Storage.isDir d (root.join p) = true := by
  obtain ⟨names, found⟩ := isDir_eq_true.mp h
  obtain ⟨base, name, ends, some_base⟩ := join_ends root normal
  rw [standsAt_remove d ends (some_base some_root)] at found
  refine isDir_eq_true.mpr ?_
  split at found
  next => cases found
  next =>
    split at found
    next =>
      obtain ⟨entry, stands, less⟩ := Option.map_eq_some_iff.mp found
      cases entry with
      | file => cases less
      | dir ys => exact ⟨ys, stands⟩
    next => exact ⟨names, found⟩

/-- Writing a file makes directories above it only. -/
theorem isDir_addFile {p q : Path} {content : ByteArray} (normal_p : p.IsNormalized)
    (normal : q.IsNormalized) (above : ¬ (p.parts <+: q.parts ∧ p ≠ q))
    (h : Storage.isDir (d.addFile (root.join q) content) (root.join p) = true) :
    Storage.isDir d (root.join p) = true := by
  obtain ⟨names, found⟩ := isDir_eq_true.mp h
  have not_above : (root.join p).parts ≠ [] → (root.join p).parts <+: (root.join q).parts →
      (root.join p).parts = (root.join q).parts := by
    intro _ inside
    rw [normal_p.join_parts, normal.join_parts, List.prefix_append_right_inj] at inside
    by_cases same : p = q
    · rw [same]
    · exact absurd ⟨inside, same⟩ above
  have linked := standsAt_link ((root.join q).parts.length + 1)
    (putAt (root.join q) (.file content (d.clock + 1)) d.entries)
    (join_ne_here root normal_p) not_above
  have stands := linked.symm.trans found
  rw [standsAt_putAt] at stands
  refine isDir_eq_true.mpr ⟨names, ?_⟩
  split at stands
  next => cases stands
  next => exact stands

theorem isDir_edit (some_root : root.parts ≠ []) (normal : e.path.IsNormalized) {p : Path}
    (normal_p : p.IsNormalized) (h : Storage.isDir (d.edit root e) (root.join p) = true) :
    Storage.isDir d (root.join p) = true ∨ p.parts <+: e.path.parts ∧ p ≠ e.path := by
  cases e with
  | delete q => exact .inl (isDir_remove some_root normal h)
  | write q content =>
    by_cases above : p.parts <+: q.parts ∧ p ≠ q
    · exact .inr above
    · exact .inl (isDir_addFile normal_p normal above h)

theorem Holds.edit (h : d.Holds root files) (some_root : root.parts ≠ [])
    (normal : e.path.IsNormalized) (mem : e.path ∈ files) : (d.edit root e).Holds root files := by
  refine ⟨?_, ?_, ?_⟩
  · rw [contentAt_edit]
    · exact h.base
    · exact join_ne_root root normal
  · intro p normal_p file
    by_cases same : e.path = p
    · rw [← same]
      exact mem
    · refine h.file p normal_p ?_
      rw [isFile_eq, contentAt_edit] at file
      · rw [isFile_eq]
        exact file
      · exact fun parts => same (join_injective root normal normal_p parts)
  · intro p normal_p is_dir
    rcases isDir_edit some_root normal normal_p is_dir with before | ⟨within, other⟩
    · exact h.dir p normal_p before
    · exact ⟨e.path, mem, within, other⟩

theorem empty_holds (root : Path) (files : List Path) : empty.Holds root files := by
  have no_file (parts : List Part) : contentAt empty.entries parts = none := by
    rw [contentAt, standsAt_empty]
    split <;> rfl
  refine ⟨no_file _, ?_, ?_⟩
  · intro p _ file
    rw [isFile_eq, no_file] at file
    cases file
  · intro p normal is_dir
    obtain ⟨names, found⟩ := isDir_eq_true.mp is_dir
    rw [standsAt_empty, if_neg (join_ne_here root normal)] at found
    cases found

/-- Files that lie apart can be laid out in any order. -/
theorem allowsAll_of_apart (some_root : root.parts ≠ []) (normal : ∀ p ∈ files, p.IsNormalized)
    (apart : Path.Apart files) {es : List Edit} (among : ∀ e ∈ es, e.path ∈ files)
    (h : d.Holds root files) : d.AllowsAll root es ∧ (d.edits root es).Holds root files := by
  induction es generalizing d with
  | nil => exact ⟨trivial, h⟩
  | cons e rest ih =>
    have mem := among e (by simp)
    have here_ := h.admits apart (normal _ mem) mem
    obtain ⟨allowed, held⟩ := ih (fun e he => among e (by simp [he]))
      (h.edit some_root (normal _ mem) mem)
    exact ⟨⟨⟨normal _ mem, here_⟩, allowed⟩, held⟩

end MemoryDisk

namespace Project

variable {project : Project} {files : List Path}

/-- Whether a step changes no other files than some, and refreshes a normal path. -/
def Step.About (files : List Path) : Step → Prop
  | .edit e => e.path ∈ files
  | .refresh p => p.IsNormalized
  | _ => True

/-- In a project whose files lie apart, every step about them is allowed. -/
theorem allowsAll_of_apart (sound : project.Sound) (normal : ∀ p ∈ files, p.IsNormalized)
    (apart : Path.Apart files) {steps : List Step} (about_ : ∀ s ∈ steps, s.About files)
    (h : project.disk.Holds project.graph.root files) : project.AllowsAll steps := by
  induction steps generalizing project with
  | nil => trivial
  | cons s rest ih =>
    have here_ := about_ s (by simp)
    have allowed : project.Allows s := by
      cases s with
      | edit e => exact ⟨normal _ here_, h.admits apart (normal _ here_) here_⟩
      | outcome => trivial
      | refresh p => exact here_
      | rebuild => trivial
    have advances := step_advances sound allowed
    refine ⟨allowed, ih advances.sound (fun s hs => about_ s (by simp [hs])) ?_⟩
    rw [advances.root]
    cases s with
    | edit e => exact h.edit sound.some_root (normal _ here_) here_
    | outcome => exact h
    | refresh p =>
      rw [advances.disk (by simp)]
      exact h
    | rebuild =>
      rw [advances.disk (by simp)]
      exact h

/-- Files that lie apart may be laid out, and after a build written, deleted and refreshed in any
order. -/
theorem built_allowsAll {root : Path} {options : GraphOptions} {setup : List Edit}
    {start : FileGraph.Reading MemoryDisk} {steps : List Step}
    (normal : ∀ p ∈ files, p.IsNormalized) (apart : Path.Apart files)
    (among : ∀ e ∈ setup, e.path ∈ files) (about_ : ∀ s ∈ steps, s.About files)
    (built : FileGraph.build root options (MemoryDisk.empty.edits root setup) = .ok start) :
    MemoryDisk.empty.AllowsAll root setup ∧ (ofReading start).AllowsAll steps := by
  have some_root := built_root (fun e he => normal _ (among e he)) built
  obtain ⟨laid_out, held⟩ := MemoryDisk.allowsAll_of_apart some_root normal apart among
    (MemoryDisk.empty_holds root files)
  obtain ⟨sound, disk, renews⟩ := built_sound laid_out built
  refine ⟨laid_out, allowsAll_of_apart sound normal apart about_ ?_⟩
  change start.storage.Holds start.graph.root files
  rw [disk, renews.root]
  exact held

end Project

end StoryBuild
