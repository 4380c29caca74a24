import Mathlib.Data.List.Basic
import Mathlib.Data.List.Flatten
import Mathlib.Logic.Relation
import StoryBuild.Proofs.FileOrder

namespace StoryBuild.FileGraph

open Relation (ReflTransGen)

variable {g : FileGraph} {next : SourceFile → List Path} {visited stack : List Path}
  {p q : Path} {f k : SourceFile} {steps : Nat}

/-- A path leads to a file along edges between tracked files that were not visited. -/
inductive Leads (g : FileGraph) (next : SourceFile → List Path) (visited : List Path) :
    Path → SourceFile → Prop
  | here {p : Path} {f : SourceFile} (fresh : visited.any (· == p) = false)
      (found : g.file? p = some f) : Leads g next visited p f
  | there {p q : Path} {f k : SourceFile} (fresh : visited.any (· == p) = false)
      (found : g.file? p = some f) (edge : q ∈ next f) (rest : Leads g next visited q k) :
      Leads g next visited p k

namespace Leads

theorem found (h : g.Leads next visited p k) : ∃ f, g.file? p = some f := by
  cases h with
  | here _ found => exact ⟨_, found⟩
  | there _ found => exact ⟨_, found⟩

theorem mem (h : g.Leads next visited p k) : k ∈ g.files := by
  induction h with
  | here _ found => exact (file_found found).1
  | there _ _ _ _ ih => exact ih

theorem fresh (h : g.Leads next visited p k) : visited.any (· == p) = false := by
  cases h with
  | here fresh => exact fresh
  | there fresh => exact fresh

theorem congr (h : g.Leads next visited p k) (same : p.parts = q.parts) :
    g.Leads next visited q k := by
  have unvisited (fresh : visited.any (· == p) = false) : visited.any (· == q) = false := by
    simpa only [Path.beq_congr same] using fresh
  cases h with
  | here fresh found => exact .here (unvisited fresh) (file_congr_parts same ▸ found)
  | there fresh found edge rest =>
    exact .there (unvisited fresh) (file_congr_parts same ▸ found) edge rest

theorem mono (h : g.Leads next (q :: visited) p k) : g.Leads next visited p k := by
  have older {x : Path} (fresh : (q :: visited).any (· == x) = false) :
      visited.any (· == x) = false := (Bool.or_eq_false_iff.mp fresh).2
  induction h with
  | here fresh found => exact .here (older fresh) found
  | there fresh found edge _ ih => exact .there (older fresh) found edge ih

/-- A way either passes by a path or can be followed from it without coming back. -/
theorem split (p : Path) (h : g.Leads next visited q k) :
    g.Leads next (p :: visited) q k ∨
      ∃ f, g.file? p = some f ∧ (k = f ∨ ∃ s ∈ next f, g.Leads next (p :: visited) s k) := by
  have newer {x : Path} (fresh : visited.any (· == x) = false) (other : p.parts ≠ x.parts) :
      (p :: visited).any (· == x) = false :=
    Bool.or_eq_false_iff.mpr ⟨Path.beq_false_iff.mpr other, fresh⟩
  induction h with
  | @here q f fresh found =>
    by_cases same : p.parts = q.parts
    · exact .inr ⟨f, (file_congr_parts same).trans found, .inl rfl⟩
    · exact .inl (.here (newer fresh same) found)
  | @there q s f k fresh found edge _ ih =>
    rcases ih with past | through
    · by_cases same : p.parts = q.parts
      · exact .inr ⟨f, (file_congr_parts same).trans found, .inr ⟨s, edge, past⟩⟩
      · exact .inl (.there (newer fresh same) found edge past)
    · exact .inr through

/-- A way goes on along one more edge. -/
theorem snoc {q : Path} {f j : SourceFile} (h : g.Leads next [] p f) (edge : q ∈ next f)
    (found : g.file? q = some j) : g.Leads next [] p j := by
  induction h with
  | here _ first => exact .there rfl first edge (.here rfl found)
  | there _ first onward _ ih => exact .there rfl first onward (ih edge)

end Leads

theorem leads_of_mem_walk {x : Path} (h : x ∈ g.walk next steps visited stack) :
    ∃ p ∈ stack, ∃ f, g.Leads next visited p f ∧ f.path = x := by
  induction steps generalizing visited stack with
  | zero => simp [walk] at h
  | succ steps ih =>
    cases stack with
    | nil => simp [walk] at h
    | cons p stack =>
      unfold walk at h
      split at h
      next =>
        obtain ⟨q, hq, f, leads, path⟩ := ih h
        exact ⟨q, List.mem_cons_of_mem _ hq, f, leads, path⟩
      next fresh =>
        split at h
        next =>
          obtain ⟨q, hq, f, leads, path⟩ := ih h
          exact ⟨q, List.mem_cons_of_mem _ hq, f, leads.mono, path⟩
        next f found =>
          have fresh' : visited.any (· == p) = false := by simpa using fresh
          rcases List.mem_cons.mp h with rfl | h
          · exact ⟨p, List.mem_cons_self, f, .here fresh' found, rfl⟩
          · obtain ⟨q, hq, k, leads, path⟩ := ih h
            rcases List.mem_append.mp hq with edge | hq
            · exact ⟨p, List.mem_cons_self, k, .there fresh' found edge leads.mono, path⟩
            · exact ⟨q, List.mem_cons_of_mem _ hq, k, leads.mono, path⟩

/-- The files that were not visited. -/
def unvisited (g : FileGraph) (visited : List Path) : List SourceFile :=
  g.files.filter fun f => !visited.any (· == f.path)

theorem unvisited_cons (p : Path) :
    g.unvisited (p :: visited) = (g.unvisited visited).filter fun f => !(f.path == p) := by
  have beq (f : SourceFile) : (p == f.path) = (f.path == p) :=
    BEq.comm (a := p.parts) (b := f.path.parts)
  simp only [unvisited, List.filter_filter, List.any_cons, Bool.not_or, beq]

/-- The steps that a walk can still take. -/
def load (g : FileGraph) (next : SourceFile → List Path) (visited stack : List Path) : Nat :=
  stack.length + ((g.unvisited visited).flatMap next).length

theorem load_cons (p : Path) :
    g.load next visited (p :: stack) = g.load next visited stack + 1 := by
  simp only [load, List.length_cons]
  omega

theorem load_visit (p : Path) :
    g.load next (p :: visited) stack ≤ g.load next visited stack := by
  have fewer : (g.unvisited (p :: visited)).Sublist (g.unvisited visited) := by
    rw [unvisited_cons]
    exact List.filter_sublist
  exact Nat.add_le_add_left (fewer.flatMap next).length_le _

/-- The edges of a file are followed once. -/
theorem load_follow (next : SourceFile → List Path) (stack : List Path)
    (fresh : visited.any (· == p) = false) (found : g.file? p = some f) :
    g.load next (p :: visited) (next f ++ stack) + 1 ≤ g.load next visited (p :: stack) := by
  obtain ⟨hf, path⟩ := file_found found
  have same : (f.path == p) = true := Path.beq_iff.mpr path
  have left : f ∈ g.unvisited visited := by
    refine List.mem_filter.mpr ⟨hf, ?_⟩
    simp only [Path.beq_congr path, fresh, Bool.not_false]
  obtain ⟨front, back, split⟩ := List.append_of_mem left
  have fewer (l : List SourceFile) :
      ((l.filter fun k => !(k.path == p)).flatMap next).length ≤ (l.flatMap next).length :=
    (List.filter_sublist.flatMap next).length_le
  have front_le := fewer front
  have back_le := fewer back
  simp only [load, unvisited_cons, split, List.filter_append, List.filter_cons, same, Bool.not_true,
    Bool.false_eq_true, if_false, List.flatMap_append, List.flatMap_cons, List.length_append,
    List.length_cons]
  omega

theorem mem_walk_of_leads (room : g.load next visited stack ≤ steps) (mem : p ∈ stack)
    (leads : g.Leads next visited p f) : f.path ∈ g.walk next steps visited stack := by
  -- Every step of the walk lowers the load, whatever it does with the top of the stack.
  induction steps generalizing visited stack p with
  | zero =>
    have long := List.length_pos_of_mem mem
    unfold load at room
    omega
  | succ steps ih =>
    cases stack with
    | nil => cases mem
    | cons top stack =>
      have shorter : g.load next visited (top :: stack) = g.load next visited stack + 1 :=
        load_cons top
      unfold walk
      split
      next seen =>
        rcases List.mem_cons.mp mem with rfl | mem
        · exact absurd leads.fresh (by simpa using seen)
        · exact ih (by omega) mem leads
      next fresh =>
        have fresh' : visited.any (· == top) = false := by simpa using fresh
        have visit : g.load next (top :: visited) stack ≤ g.load next visited stack :=
          load_visit top
        rcases leads.split top with past | ⟨k, found, onward⟩
        · have mem' : p ∈ stack := by
            refine (List.mem_cons.mp mem).resolve_left ?_
            rintro rfl
            have again := past.fresh
            rw [List.any_cons, Path.beq_iff.mpr rfl] at again
            cases again
          split
          next => exact ih (by omega) mem' past
          next k found =>
            have follow := load_follow next stack fresh' found
            exact List.mem_cons_of_mem _
              (ih (by omega) (List.mem_append_right _ mem') past)
        · have follow := load_follow next stack fresh' found
          rw [found]
          rcases onward with rfl | ⟨s, edge, rest⟩
          · exact List.mem_cons_self
          · exact List.mem_cons_of_mem _ (ih (by omega) (List.mem_append_left _ edge) rest)

theorem walkBound_eq (g : FileGraph) (next : SourceFile → List Path) (start : Path) :
    g.walkBound next = g.load next [] [start] := by
  have total (files : List SourceFile) (n : Nat) :
      files.foldl (fun total f => total + (next f).length) n =
        n + (files.flatMap next).length := by
    induction files generalizing n with
    | nil => rfl
    | cons f rest ih =>
      rw [List.foldl_cons, ih, List.flatMap_cons, List.length_append]
      omega
  have all : g.unvisited [] = g.files := List.filter_eq_self.mpr fun _ _ => rfl
  rw [walkBound, total, load, all]
  rfl

/-- A walk from a path lists exactly the files that the path leads to. -/
theorem mem_reach {start x : Path} :
    x ∈ g.reach next start ↔ ∃ f, g.Leads next [] start f ∧ f.path = x := by
  constructor
  · intro h
    obtain ⟨p, hp, f, leads, path⟩ := leads_of_mem_walk h
    rw [List.mem_singleton.mp hp] at leads
    exact ⟨f, leads, path⟩
  · rintro ⟨f, leads, rfl⟩
    exact mem_walk_of_leads (Nat.le_of_eq (walkBound_eq g next start).symm) List.mem_cons_self
      leads

variable {seen todo listed : List Path}

/-- The recursive traversal of some paths after some files were listed, with the files that it
lists. A path that was listed or is not tracked is passed over. A file is listed, then what follows
it is traversed, and then the paths behind it. -/
inductive Tour (g : FileGraph) (next : SourceFile → List Path) :
    List Path → List Path → List Path → Prop
  | done (seen : List Path) : Tour g next seen [] []
  | pass {seen todo listed : List Path} {p : Path}
      (idle : seen.any (· == p) = true ∨ g.file? p = none) (rest : Tour g next seen todo listed) :
      Tour g next seen (p :: todo) listed
  | visit {seen todo inner outer : List Path} {p : Path} {f : SourceFile}
      (fresh : seen.any (· == p) = false) (found : g.file? p = some f)
      (below : Tour g next (seen ++ [f.path]) (next f) inner)
      (rest : Tour g next (seen ++ f.path :: inner) todo outer) :
      Tour g next seen (p :: todo) (f.path :: inner ++ outer)

theorem load_mono (more : ∀ p, seen.any (· == p) = true → visited.any (· == p) = true) :
    g.load next visited stack ≤ g.load next seen stack := by
  have fewer : (g.unvisited visited).Sublist (g.unvisited seen) := by
    refine List.monotone_filter_right g.files fun f unseen => ?_
    rw [Bool.not_eq_true'] at unseen ⊢
    exact Bool.eq_false_iff.mpr fun known => Bool.eq_false_iff.mp unseen (more _ known)
  exact Nat.add_le_add_left (fewer.flatMap next).length_le _

/-- A file that is found under a path is known wherever the path is. -/
theorem beq_found (found : g.file? p = some f) (x : Path) : (f.path == x) = (p == x) := by
  rw [Bool.eq_iff_iff, Path.beq_iff, Path.beq_iff, (file_found found).2]

theorem load_append (front : List Path) :
    g.load next visited (front ++ stack) = g.load next visited front + stack.length := by
  simp only [load, List.length_append]
  omega

/-- A file that is listed is visited, whatever is listed after it. -/
theorem load_listed (found : g.file? p = some f) (inner : List Path) :
    g.load next (seen ++ f.path :: inner) stack ≤ g.load next (p :: seen) stack := by
  refine load_mono fun x known => ?_
  have alike : (f.path == x) = (p == x) := beq_found found x
  simp only [List.any_append, List.any_cons, alike, Bool.or_eq_true] at known ⊢
  exact known.elim (.inr ∘ .inl) .inl

/-- There is a traversal of any paths. -/
theorem exists_tour (g : FileGraph) (next : SourceFile → List Path) (seen todo : List Path) :
    ∃ listed, Tour g next seen todo listed := by
  -- The edges of a file that is listed do not count any more, and no other edges come to count.
  induction weight : g.load next seen todo using Nat.strongRecOn generalizing seen todo with
  | ind weight ih =>
    subst weight
    cases todo with
    | nil => exact ⟨[], .done seen⟩
    | cons p todo =>
      have shorter : g.load next seen (p :: todo) = g.load next seen todo + 1 := load_cons p
      by_cases idle : seen.any (· == p) = true ∨ g.file? p = none
      · obtain ⟨listed, rest⟩ := ih _ (by omega) seen todo rfl
        exact ⟨listed, .pass idle rest⟩
      · obtain ⟨fresh, tracked⟩ := not_or.mp idle
        rw [Bool.not_eq_true] at fresh
        obtain ⟨f, found⟩ := Option.ne_none_iff_exists'.mp tracked
        have follow := load_follow next todo fresh found
        have below_le :
            g.load next (seen ++ [f.path]) (next f) ≤ g.load next (p :: seen) (next f) :=
          load_listed found []
        have whole : g.load next (p :: seen) (next f ++ todo) =
            g.load next (p :: seen) (next f) + todo.length := load_append (next f)
        obtain ⟨inner, below⟩ := ih _ (by omega) (seen ++ [f.path]) (next f) rfl
        have rest_le : g.load next (seen ++ f.path :: inner) todo ≤ g.load next (p :: seen) todo :=
          load_listed found inner
        have visit : g.load next (p :: seen) todo ≤ g.load next seen todo := load_visit p
        obtain ⟨outer, rest⟩ := ih _ (by omega) (seen ++ f.path :: inner) todo rfl
        exact ⟨f.path :: inner ++ outer, .visit fresh found below rest⟩

/-- A traversal lists no file twice, and none that was listed before. -/
theorem Tour.once (tour : Tour g next seen todo listed) :
    (∀ x ∈ listed, seen.any (· == x) = false) ∧ listed.Pairwise fun p q => p.parts ≠ q.parts := by
  induction tour with
  | done => exact ⟨nofun, .nil⟩
  | pass _ _ ih => exact ih
  | @visit seen todo inner outer p f fresh found _ _ below rest =>
    have own : seen.any (· == f.path) = false := by
      simpa only [Path.beq_congr (file_found found).2] using fresh
    obtain ⟨inner_new, inner_apart⟩ := below
    obtain ⟨outer_new, outer_apart⟩ := rest
    simp only [List.any_append, List.any_cons, List.any_nil, Bool.or_false, Bool.or_eq_false_iff]
      at inner_new outer_new
    refine ⟨?_, List.pairwise_append.mpr
      ⟨List.pairwise_cons.mpr ⟨?_, inner_apart⟩, outer_apart, ?_⟩⟩
    · intro x hx
      rcases List.mem_append.mp hx with hx | hx
      · rcases List.mem_cons.mp hx with rfl | hx
        · exact own
        · exact (inner_new x hx).1
      · exact (outer_new x hx).1
    · exact fun x hx => Path.beq_false_iff.mp (inner_new x hx).2
    · intro x hx y hy
      obtain ⟨-, top, others⟩ := outer_new y hy
      rcases List.mem_cons.mp hx with rfl | hx
      · exact Path.beq_false_iff.mp top
      · exact Path.beq_false_iff.mp (Bool.eq_false_iff.mpr (List.any_eq_false.mp others x hx))

/-- Where a walk stands: the paths that it has visited, its stack, and the files listed so far. -/
structure WalkState where
  visited : List Path
  stack : List Path
  listed : List Path

/-- One turn of a walk takes the path on top of the stack. It drops the path if it was visited, and
marks it otherwise; if it is tracked, its file is listed and what follows goes on the stack. -/
inductive WalkStep (g : FileGraph) (next : SourceFile → List Path) : WalkState → WalkState → Prop
  | drop {visited stack listed : List Path} {p : Path} (known : visited.any (· == p) = true) :
      WalkStep g next ⟨visited, p :: stack, listed⟩ ⟨visited, stack, listed⟩
  | mark {visited stack listed : List Path} {p : Path} (fresh : visited.any (· == p) = false)
      (missing : g.file? p = none) :
      WalkStep g next ⟨visited, p :: stack, listed⟩ ⟨p :: visited, stack, listed⟩
  | list {visited stack listed : List Path} {p : Path} {f : SourceFile}
      (fresh : visited.any (· == p) = false) (found : g.file? p = some f) :
      WalkStep g next ⟨visited, p :: stack, listed⟩
        ⟨p :: visited, next f ++ stack, listed ++ [f.path]⟩

/-- Every turn lowers the load, so no walk goes on for ever. -/
theorem walkStep_wellFounded (g : FileGraph) (next : SourceFile → List Path) :
    WellFounded fun s t => WalkStep g next t s := by
  refine Subrelation.wf (fun {s t} step => ?_)
    (measure fun s : WalkState => g.load next s.visited s.stack).wf
  change g.load next s.visited s.stack < g.load next t.visited t.stack
  cases step with
  | @drop visited stack listed p =>
    have shorter : g.load next visited (p :: stack) = g.load next visited stack + 1 := load_cons p
    exact Nat.lt_of_lt_of_eq (Nat.lt_succ_self _) shorter.symm
  | @mark visited stack listed p =>
    have shorter : g.load next visited (p :: stack) = g.load next visited stack + 1 := load_cons p
    have visit : g.load next (p :: visited) stack ≤ g.load next visited stack := load_visit p
    exact Nat.lt_of_le_of_lt visit (Nat.lt_of_lt_of_eq (Nat.lt_succ_self _) shorter.symm)
  | list fresh found => exact load_follow next _ fresh found

theorem walkStep_rightUnique : Relator.RightUnique (WalkStep g next) := by
  rintro s t u first second
  cases first <;> cases second <;> simp_all

/-- The turns that a walk takes, with steps enough to end it. -/
theorem walk_steps (room : g.load next visited stack ≤ steps) (listed : List Path) :
    ∃ marked, ReflTransGen (WalkStep g next) ⟨visited, stack, listed⟩
      ⟨marked, [], listed ++ g.walk next steps visited stack⟩ := by
  induction steps generalizing visited stack listed with
  | zero =>
    obtain rfl : stack = [] := by
      unfold load at room
      exact List.length_eq_zero_iff.mp (by omega)
    exact ⟨visited, by simpa [walk] using ReflTransGen.refl⟩
  | succ steps ih =>
    cases stack with
    | nil => exact ⟨visited, by simpa [walk] using ReflTransGen.refl⟩
    | cons p stack =>
      have shorter : g.load next visited (p :: stack) = g.load next visited stack + 1 := load_cons p
      unfold walk
      split
      next known =>
        obtain ⟨marked, turns⟩ := @ih visited stack (by omega) listed
        exact ⟨marked, .head (.drop known) turns⟩
      next fresh =>
        rw [Bool.not_eq_true] at fresh
        have visit : g.load next (p :: visited) stack ≤ g.load next visited stack := load_visit p
        split
        next missing =>
          obtain ⟨marked, turns⟩ := @ih (p :: visited) stack (by omega) listed
          exact ⟨marked, .head (.mark fresh missing) turns⟩
        next f found =>
          have follow := load_follow next stack fresh found
          obtain ⟨marked, turns⟩ :=
            @ih (p :: visited) (next f ++ stack) (by omega) (listed ++ [f.path])
          refine ⟨marked, .head (.list fresh found) ?_⟩
          rwa [List.append_assoc, List.singleton_append] at turns

/-- A walk with an empty stack has ended. -/
theorem walk_end_unique {s : WalkState} {a b : List Path × List Path}
    (first : ReflTransGen (WalkStep g next) s ⟨a.1, [], a.2⟩)
    (second : ReflTransGen (WalkStep g next) s ⟨b.1, [], b.2⟩) : a = b := by
  have ended {c : List Path × List Path} {t : WalkState}
      (turns : ReflTransGen (WalkStep g next) ⟨c.1, [], c.2⟩ t) : t = ⟨c.1, [], c.2⟩ := by
    cases turns.cases_head with
    | inl same => exact same.symm
    | inr more =>
      obtain ⟨_, step, -⟩ := more
      cases step
  rcases first.total_of_right_unique walkStep_rightUnique second with turns | turns
  · have same := ended turns
    simp only [WalkState.mk.injEq, true_and] at same
    exact Prod.ext same.1.symm same.2.symm
  · have same := ended turns
    simp only [WalkState.mk.injEq, true_and] at same
    exact Prod.ext same.1 same.2

/-- Whether a walk has marked the tracked paths among some, and no other tracked paths. -/
def Marks (g : FileGraph) (visited seen : List Path) : Prop :=
  ∀ p f, g.file? p = some f → visited.any (· == p) = seen.any (· == p)

/-- A path that is not tracked may be marked. -/
theorem Marks.miss (marks : g.Marks visited seen) (missing : g.file? p = none) :
    g.Marks (p :: visited) seen := by
  intro x k tracked
  have other : (p == x) = false := Path.beq_false_iff.mpr fun same => by
    rw [file_congr_parts same, tracked] at missing
    cases missing
  rw [List.any_cons, other, Bool.false_or, marks x k tracked]

/-- A file is listed when its path is marked. -/
theorem Marks.hit (marks : g.Marks visited seen) (found : g.file? p = some f) :
    g.Marks (p :: visited) (seen ++ [f.path]) := by
  intro x k tracked
  have alike : (p == x) = (f.path == x) := (beq_found found x).symm
  rw [List.any_cons, alike, marks x k tracked, List.any_append, List.any_cons, List.any_nil,
    Bool.or_false, Bool.or_comm]

/-- A walk does what a traversal of the paths on top of its stack does, and then goes on below
them. -/
theorem Tour.turns (tour : Tour g next seen todo listed) (marks : g.Marks visited seen)
    (stack : List Path) :
    ∃ marked, g.Marks marked (seen ++ listed) ∧
      ReflTransGen (WalkStep g next) ⟨visited, todo ++ stack, seen⟩
        ⟨marked, stack, seen ++ listed⟩ := by
  induction tour generalizing visited stack with
  | done seen => exact ⟨visited, by rwa [List.append_nil], by simpa using ReflTransGen.refl⟩
  | @pass seen todo listed p idle _ ih =>
    cases known : visited.any (· == p) with
    | true =>
      obtain ⟨marked, agree, turns⟩ := ih marks stack
      exact ⟨marked, agree, .head (.drop known) turns⟩
    | false =>
      have missing : g.file? p = none := by
        rcases idle with before | missing
        · refine Option.eq_none_iff_forall_not_mem.mpr fun f tracked => ?_
          rw [← marks p f tracked, known] at before
          cases before
        · exact missing
      obtain ⟨marked, agree, turns⟩ := ih (marks.miss missing) stack
      exact ⟨marked, agree, .head (.mark known missing) turns⟩
  | @visit seen todo inner outer p f fresh found _ _ below rest =>
    -- What follows the file lies on the paths behind it, which wait until it is done.
    have unmarked : visited.any (· == p) = false := (marks p f found).trans fresh
    obtain ⟨under, agree, turns⟩ := below (marks.hit found) (todo ++ stack)
    have front : seen ++ [f.path] ++ inner = seen ++ f.path :: inner := by simp
    rw [front] at agree turns
    obtain ⟨marked, agree', turns'⟩ := rest agree stack
    have whole : seen ++ f.path :: inner ++ outer = seen ++ (f.path :: inner ++ outer) := by simp
    rw [whole] at agree' turns'
    exact ⟨marked, agree', .head (.list unmarked found) (turns.trans turns')⟩

/-- A walk that has steps enough lists what a traversal lists, whatever the traversal. -/
theorem Tour.eq_walk (tour : Tour g next [] todo listed) (room : g.load next [] todo ≤ steps) :
    listed = g.walk next steps [] todo := by
  have unmarked : g.Marks [] [] := fun _ _ _ => rfl
  obtain ⟨_, -, turns⟩ := tour.turns unmarked []
  obtain ⟨_, taken⟩ := walk_steps room []
  rw [List.append_nil] at turns
  exact congrArg Prod.snd (walk_end_unique (a := (_, _)) (b := (_, _)) turns taken)

/-- The family of a path is listed in preorder. However the walk goes, it comes to its end, and the
steps that it is given are enough. It lists the files that the path leads to along includes of
tracked files, each of them once and nothing else. The order is the order of the recursive traversal
that lists a file and then, in the order of the source, what its includes lead to and was not listed
before. -/
theorem family_is_preorder (g : FileGraph) (start : Path) :
    (WellFounded fun s t => WalkStep g SourceFile.includes t s) ∧
      (∃ marked, ReflTransGen (WalkStep g SourceFile.includes) ⟨[], [start], []⟩
        ⟨marked, [], g.family start⟩) ∧
      (∀ steps, g.walkBound SourceFile.includes ≤ steps →
        g.walk SourceFile.includes steps [] [start] = g.family start) ∧
      (∀ x, x ∈ g.family start ↔ ∃ f, g.Leads SourceFile.includes [] start f ∧ f.path = x) ∧
      ((g.family start).Pairwise fun p q => p.parts ≠ q.parts) ∧
      ∀ listed, Tour g SourceFile.includes [] [start] listed ↔ listed = g.family start := by
  have room {steps : Nat} (enough : g.walkBound SourceFile.includes ≤ steps) :
      g.load SourceFile.includes [] [start] ≤ steps := walkBound_eq g _ start ▸ enough
  obtain ⟨tour, toured⟩ := exists_tour g SourceFile.includes [] [start]
  have same : tour = g.family start := toured.eq_walk (room (Nat.le_refl _))
  rw [same] at toured
  refine ⟨walkStep_wellFounded g _, ?_, ?_, fun x => mem_reach, toured.once.2, fun listed => ?_⟩
  · exact walk_steps (room (Nat.le_refl _)) []
  · exact fun steps enough => (toured.eq_walk (room enough)).symm
  · refine ⟨fun other => other.eq_walk (room (Nat.le_refl _)), ?_⟩
    rintro rfl
    exact toured

/-- A file whose parts share a part and lead back to it. -/
def tangled : FileGraph where
  root := .ofText "/story"
  options := { extension := "ink" }
  files := [
    { path := .ofText "a.ink", includes := [.ofText "b.ink", .ofText "c.ink", .ofText "d.ink"] },
    { path := .ofText "b.ink", includes := [.ofText "d.ink", .ofText "c.ink"] },
    { path := .ofText "c.ink" }, { path := .ofText "d.ink", includes := [.ofText "a.ink"] }]

/-- The parts stand in the order in which the first part includes them. -/
theorem tangled_family :
    (tangled.family (.ofText "a.ink")).map Path.text = ["a.ink", "b.ink", "d.ink", "c.ink"] ∧
      Tour tangled SourceFile.includes [] [.ofText "a.ink"] (tangled.family (.ofText "a.ink")) := by
  obtain ⟨-, -, -, -, -, tours⟩ := family_is_preorder tangled (.ofText "a.ink")
  exact ⟨by decide +kernel, (tours _).mpr rfl⟩

end StoryBuild.FileGraph
