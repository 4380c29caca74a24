import Mathlib.Data.List.Induction
import StoryBuild.Pending
import StoryBuild.Proofs.PathParts

namespace StoryBuild.Pending

variable {q : Pending} {p x : Path}

theorem contains_iff : q.contains p = true ↔ ∃ m ∈ q.members, m.parts = p.parts := by
  simp only [contains, List.any_eq_true, Path.beq_iff]

/-- The list and the set hold the same paths, and the list holds none twice. -/
structure Valid (q : Pending) : Prop where
  same : ∀ p : Path, q.contains p = true ↔ ∃ x ∈ q.order, x.parts = p.parts
  once : q.order.Pairwise fun x y => x.parts ≠ y.parts

theorem valid_empty : Valid {} :=
  ⟨fun p => by simp [contains], .nil⟩

theorem push_known (h : q.contains p = true) : q.push p = (false, q) := by
  rw [push, if_pos h]

theorem push_new (h : q.contains p = false) :
    q.push p = (true, ⟨q.order ++ [p], p :: q.members⟩) := by
  rw [push, if_neg (by simp [h])]

theorem contains_push :
    (q.push p).2.contains x = true ↔ q.contains x = true ∨ x.parts = p.parts := by
  cases h : q.contains p with
  | true =>
    rw [push_known h]
    refine ⟨.inl, fun waits => waits.elim id fun same => ?_⟩
    rw [contains_iff] at h ⊢
    rwa [same]
  | false =>
    rw [push_new h, contains_iff, contains_iff]
    simp only [List.mem_cons, exists_eq_or_imp]
    rw [or_comm, eq_comm (a := p.parts)]

theorem Valid.push (h : q.Valid) (p : Path) : (q.push p).2.Valid := by
  cases known : q.contains p with
  | true => rwa [push_known known]
  | false =>
    have fresh : ∀ x ∈ q.order, x.parts ≠ p.parts := by
      intro x hx same
      rw [(h.same p).mpr ⟨x, hx, same⟩] at known
      cases known
    rw [push_new known]
    constructor
    · intro x
      rw [← push_new known, contains_push, push_new known, h.same x]
      simp only [List.mem_append, List.mem_singleton]
      constructor
      · rintro (⟨y, hy, same⟩ | same)
        · exact ⟨y, .inl hy, same⟩
        · exact ⟨p, .inr rfl, same.symm⟩
      · rintro ⟨y, hy | rfl, same⟩
        · exact .inl ⟨y, hy, same⟩
        · exact .inr same.symm
    · refine List.pairwise_append.mpr ⟨h.once, List.pairwise_singleton _ _, ?_⟩
      intro y hy z hz
      rw [List.mem_singleton.mp hz]
      exact fresh y hy

theorem remove_unknown (h : q.contains p = false) : q.remove p = (false, q) := by
  rw [remove, if_neg (by simp [h])]

theorem remove_known (h : q.contains p = true) :
    q.remove p =
      (true, ⟨q.order.filter fun x => !(x == p), q.members.filter fun x => !(x == p)⟩) := by
  rw [remove, if_pos h]

theorem contains_remove :
    (q.remove p).2.contains x = true ↔ q.contains x = true ∧ x.parts ≠ p.parts := by
  cases h : q.contains p with
  | false =>
    rw [remove_unknown h]
    refine ⟨fun waits => ⟨waits, fun same => ?_⟩, And.left⟩
    have both := Bool.eq_false_iff.mp h
    rw [ne_eq, contains_iff] at both
    rw [contains_iff, same] at waits
    exact both waits
  | true =>
    rw [remove_known h, contains_iff, contains_iff]
    simp only [List.mem_filter, Bool.not_eq_true', Path.beq_false_iff]
    constructor
    · rintro ⟨m, ⟨hm, other⟩, same⟩
      exact ⟨⟨m, hm, same⟩, same ▸ other⟩
    · rintro ⟨⟨m, hm, same⟩, other⟩
      exact ⟨m, ⟨hm, same ▸ other⟩, same⟩

theorem Valid.remove (h : q.Valid) (p : Path) : (q.remove p).2.Valid := by
  cases known : q.contains p with
  | false => rwa [remove_unknown known]
  | true =>
    constructor
    · intro x
      rw [contains_remove, h.same x, remove_known known]
      simp only [List.mem_filter, Bool.not_eq_true', Path.beq_false_iff]
      constructor
      · rintro ⟨⟨y, hy, same⟩, other⟩
        exact ⟨y, ⟨hy, same ▸ other⟩, same⟩
      · rintro ⟨y, ⟨hy, other⟩, same⟩
        exact ⟨⟨y, hy, same⟩, same ▸ other⟩
    · rw [remove_known known]
      exact h.once.sublist List.filter_sublist

/-- A call on the waiting paths. -/
inductive Call where
  | push (p : Path)
  | remove (p : Path)
  | contains (p : Path)
  | drain
  | isEmpty

/-- What a call is answered: whether something is so, or some paths. -/
inductive Answer where
  | said (yes : Bool)
  | gave (ps : List Path)

/-- The answer to a call, and what waits after it. -/
def serve (q : Pending) : Call → Answer × Pending
  | .push p => (q.push p).map .said id
  | .remove p => (q.remove p).map .said id
  | .contains p => (.said (q.contains p), q)
  | .drain => q.drain.map .gave id
  | .isEmpty => (.said q.isEmpty, q)

/-- The same for a plain list of paths. -/
def serveList (l : List Path) : Call → Answer × List Path
  | .push p => if l.contains p then (.said false, l) else (.said true, l ++ [p])
  | .remove p => (.said (l.contains p), l.erase p)
  | .contains p => (.said (l.contains p), l)
  | .drain => (.gave l, [])
  | .isEmpty => (.said l.isEmpty, l)

/-- The answers to calls that come one after another, and what is there after the last. -/
def serveAll {α : Type} (serve : α → Call → Answer × α) (a : α) : List Call → List Answer × α
  | [] => ([], a)
  | call :: calls =>
    ((serve a call).1 :: (serveAll serve (serve a call).2 calls).1,
      (serveAll serve (serve a call).2 calls).2)

/-- Deleting one occurrence deletes all where there is at most one. -/
theorem erase_once {l : List Path} (once : l.Pairwise fun x y => x.parts ≠ y.parts) (p : Path) :
    l.erase p = l.filter fun x => !(x == p) := by
  induction l with
  | nil => rfl
  | cons x l ih =>
    obtain ⟨others, once⟩ := List.pairwise_cons.mp once
    by_cases same : x.parts = p.parts
    · have hit : (x == p) = true := Path.beq_iff.mpr same
      have kept : l.filter (fun y => !(y == p)) = l := by
        refine List.filter_eq_self.mpr fun y hy => ?_
        have other := others y hy
        rw [same] at other
        rw [Bool.not_eq_true', Path.beq_false_iff]
        exact other.symm
      rw [List.erase_cons, if_pos hit, List.filter_cons_of_neg (by simp [hit]), kept]
    · have miss : (x == p) = false := Path.beq_false_iff.mpr same
      rw [List.erase_cons, if_neg (by simp [miss]), List.filter_cons_of_pos (by simp [miss]),
        ih once]

namespace Valid

/-- The set knows what the list holds. -/
theorem contains_eq (h : q.Valid) (p : Path) : q.contains p = q.order.contains p := by
  rw [Bool.eq_iff_iff, h.same p, List.contains_eq_any_beq, List.any_eq_true]
  simp only [Path.beq_iff, eq_comm (a := p.parts)]

theorem remove_order (h : q.Valid) (p : Path) : (q.remove p).2.order = q.order.erase p := by
  rw [erase_once h.once]
  cases known : q.contains p with
  | true => rw [remove_known known]
  | false =>
    rw [remove_unknown known]
    refine (List.filter_eq_self.mpr fun x hx => ?_).symm
    rw [Bool.not_eq_true', Path.beq_false_iff]
    intro same
    rw [(h.same p).mpr ⟨x, hx, same⟩] at known
    cases known

theorem remove_answer (h : q.Valid) (p : Path) : (q.remove p).1 = q.order.contains p := by
  rw [← h.contains_eq]
  cases known : q.contains p with
  | true => rw [remove_known known]
  | false => rw [remove_unknown known]

/-- A call is answered as on a plain list, and leaves the same paths in the same order. -/
theorem serve (h : q.Valid) (call : Call) :
    (q.serve call).1 = (serveList q.order call).1 ∧
      (q.serve call).2.order = (serveList q.order call).2 ∧ (q.serve call).2.Valid := by
  cases call with
  | push p =>
    have valid := h.push p
    dsimp only [Pending.serve, serveList, Prod.map_fst, Prod.map_snd, id]
    rw [← h.contains_eq]
    cases known : q.contains p with
    | true =>
      rw [push_known known] at valid ⊢
      exact ⟨rfl, rfl, valid⟩
    | false =>
      rw [push_new known] at valid ⊢
      exact ⟨rfl, rfl, valid⟩
  | remove p =>
    exact ⟨congrArg Answer.said (h.remove_answer p), h.remove_order p, h.remove p⟩
  | contains p => exact ⟨congrArg Answer.said (h.contains_eq p), rfl, h⟩
  | drain => exact ⟨rfl, rfl, valid_empty⟩
  | isEmpty => exact ⟨rfl, rfl, h⟩

/-- So are calls that come one after another. -/
theorem serveAll (h : q.Valid) (calls : List Call) :
    (Pending.serveAll Pending.serve q calls).1 = (Pending.serveAll serveList q.order calls).1 ∧
      (Pending.serveAll Pending.serve q calls).2.order =
        (Pending.serveAll serveList q.order calls).2 ∧
      (Pending.serveAll Pending.serve q calls).2.Valid := by
  induction calls generalizing q with
  | nil => exact ⟨rfl, rfl, h⟩
  | cons call calls ih =>
    obtain ⟨answer, order, valid⟩ := h.serve call
    obtain ⟨answers, orders, valids⟩ := ih valid
    rw [order] at answers orders
    refine ⟨?_, orders, valids⟩
    rw [Pending.serveAll, Pending.serveAll, answer, answers]

end Valid

/-- Whether a call takes a path out. -/
def Call.Takes (p : Path) : Call → Prop
  | .remove x => x.parts = p.parts
  | .drain => True
  | _ => False

/-- Whether some calls push a path and do not take it out later. -/
def Stays (calls : List Call) (p : Path) : Prop :=
  ∃ before x after, calls = before ++ .push x :: after ∧ x.parts = p.parts ∧
    ∀ call ∈ after, ¬ call.Takes p

/-- Whether a path came after some of the calls and was not there at the time. It has not been
taken out since. -/
def Came (calls before : List Call) (p : Path) : Prop :=
  ¬ Stays before p ∧ ∃ after, calls = before ++ .push p :: after ∧ ∀ call ∈ after, ¬ call.Takes p

/-- Whether a list holds the paths that came, in the order in which they did. -/
structure InOrder (calls : List Call) (l : List Path) : Prop where
  came : ∀ p, p ∈ l ↔ ∃ before, Came calls before p
  sorted : l.Pairwise fun x y =>
    ∀ before before', Came calls before x → Came calls before' y → before.length < before'.length

variable {calls before : List Call} {call : Call} {l : List Path}

theorem Call.takes_congr (same : x.parts = p.parts) : call.Takes x ↔ call.Takes p := by
  cases call <;> simp [Call.Takes, same]

/-- Where some calls and one more are cut at a call, that is the last one or stands before it. -/
theorem concat_eq_split {after : List Call} {other : Call} :
    calls ++ [call] = before ++ other :: after ↔
      (before = calls ∧ call = other ∧ after = []) ∨
        ∃ front, after = front ++ [call] ∧ calls = before ++ other :: front := by
  rcases List.eq_nil_or_concat after with rfl | ⟨front, last, rfl⟩
  · rw [List.append_singleton_inj, eq_comm (a := calls)]
    simp
  · rw [List.concat_eq_append, ← List.cons_append, ← List.append_assoc, List.append_singleton_inj]
    constructor
    · rintro ⟨rfl, rfl⟩
      exact .inr ⟨front, rfl, rfl⟩
    · rintro (⟨-, -, none_⟩ | ⟨front', same, rfl⟩)
      · simp at none_
      · obtain ⟨rfl, rfl⟩ := List.append_singleton_inj.mp same
        exact ⟨rfl, rfl⟩

theorem Stays.congr (h : Stays calls x) (same : x.parts = p.parts) : Stays calls p := by
  obtain ⟨before, y, after, split, same', kept⟩ := h
  refine ⟨before, y, after, split, same'.trans same, fun call hcall => ?_⟩
  exact (not_congr (Call.takes_congr same)).mp (kept call hcall)

theorem stays_concat :
    Stays (calls ++ [call]) p ↔
      (∃ x, call = .push x ∧ x.parts = p.parts) ∨ Stays calls p ∧ ¬ call.Takes p := by
  constructor
  · rintro ⟨before, x, after, split, same, kept⟩
    rcases concat_eq_split.mp split with ⟨-, last, -⟩ | ⟨front, rfl, rfl⟩
    · exact .inl ⟨x, last, same⟩
    · rw [List.forall_mem_append, List.forall_mem_singleton] at kept
      exact .inr ⟨⟨before, x, front, rfl, same, kept.1⟩, kept.2⟩
  · rintro (⟨x, rfl, same⟩ | ⟨⟨before, x, after, rfl, same, kept⟩, left⟩)
    · exact ⟨calls, x, [], rfl, same, List.forall_mem_nil _⟩
    · refine ⟨before, x, after ++ [call], by simp, same, ?_⟩
      rw [List.forall_mem_append, List.forall_mem_singleton]
      exact ⟨kept, left⟩

theorem came_concat :
    Came (calls ++ [call]) before p ↔
      (before = calls ∧ call = .push p ∧ ¬ Stays calls p) ∨
        Came calls before p ∧ ¬ call.Takes p := by
  constructor
  · rintro ⟨new, after, split, kept⟩
    rcases concat_eq_split.mp split with ⟨rfl, last, -⟩ | ⟨front, rfl, rfl⟩
    · exact .inl ⟨rfl, last, new⟩
    · rw [List.forall_mem_append, List.forall_mem_singleton] at kept
      exact .inr ⟨⟨new, front, rfl, kept.1⟩, kept.2⟩
  · rintro (⟨rfl, rfl, new⟩ | ⟨⟨new, after, rfl, kept⟩, left⟩)
    · exact ⟨new, [], rfl, List.forall_mem_nil _⟩
    · refine ⟨new, after ++ [call], by simp, ?_⟩
      rw [List.forall_mem_append, List.forall_mem_singleton]
      exact ⟨kept, left⟩

theorem Came.stays (h : Came calls before p) : Stays calls p := by
  obtain ⟨-, after, split, kept⟩ := h
  exact ⟨before, p, after, split, rfl, kept⟩

theorem Came.length_lt (h : Came calls before p) : before.length < calls.length := by
  obtain ⟨-, after, rfl, -⟩ := h
  simp

/-- A path stays, in some spelling, just if it came. -/
theorem stays_iff_came : Stays calls p ↔ ∃ before x, Came calls before x ∧ x.parts = p.parts := by
  constructor
  · intro stays
    induction calls using List.reverseRecOn with
    | nil =>
      obtain ⟨before, x, after, split, -⟩ := stays
      simp at split
    | append_singleton calls call ih =>
      by_cases there : Stays calls p ∧ ¬ call.Takes p
      · obtain ⟨before, x, came, same⟩ := ih there.1
        have left : ¬ call.Takes x := (not_congr (Call.takes_congr same)).mpr there.2
        exact ⟨before, x, came_concat.mpr (.inr ⟨came, left⟩), same⟩
      · obtain ⟨x, rfl, same⟩ := (stays_concat.mp stays).resolve_right there
        -- A push takes nothing out, so the path was not there before it.
        have new : ¬ Stays calls x := fun stays => there ⟨stays.congr same, id⟩
        exact ⟨calls, x, came_concat.mpr (.inl ⟨rfl, rfl, new⟩), same⟩
  · rintro ⟨before, x, came, same⟩
    exact came.stays.congr same

namespace InOrder

theorem stays_iff (h : InOrder calls l) : Stays calls p ↔ ∃ x ∈ l, x.parts = p.parts := by
  rw [stays_iff_came]
  constructor
  · rintro ⟨before, x, came, same⟩
    exact ⟨x, (h.came x).mpr ⟨before, came⟩, same⟩
  · rintro ⟨x, hx, same⟩
    obtain ⟨before, came⟩ := (h.came x).mp hx
    exact ⟨before, x, came, same⟩

/-- A call that brings nothing new leaves the paths that it does not take. -/
theorem kept {rest : List Path} (h : InOrder calls l) (old : ∀ p, call = .push p → Stays calls p)
    (sub : rest.Sublist l) (mem : ∀ p, p ∈ rest ↔ p ∈ l ∧ ¬ call.Takes p) :
    InOrder (calls ++ [call]) rest := by
  have came (before : List Call) (p : Path) :
      Came (calls ++ [call]) before p ↔ Came calls before p ∧ ¬ call.Takes p := by
    rw [came_concat]
    refine or_iff_right ?_
    rintro ⟨-, push, new⟩
    exact new (old p push)
  refine ⟨fun p => ?_, (h.sorted.sublist sub).imp fun lt before before' cx cy => ?_⟩
  · rw [mem, h.came]
    simp only [came, exists_and_right]
  · exact lt before before' ((came _ _).mp cx).1 ((came _ _).mp cy).1

/-- A new path comes last. -/
theorem added (h : InOrder calls l) (new : ¬ Stays calls p) :
    InOrder (calls ++ [.push p]) (l ++ [p]) := by
  have came (before : List Call) (x : Path) :
      Came (calls ++ [.push p]) before x ↔ (before = calls ∧ x = p) ∨ Came calls before x := by
    rw [came_concat, Call.push.injEq, and_iff_left (show ¬ Call.Takes x (.push p) from id)]
    refine or_congr_left (and_congr_right fun _ => ⟨fun h => h.1.symm, ?_⟩)
    rintro rfl
    exact ⟨rfl, new⟩
  have other {x : Path} (hx : x ∈ l) : x ≠ p := by
    rintro rfl
    exact new (h.stays_iff.mpr ⟨x, hx, rfl⟩)
  have older {before : List Call} {x : Path} (hx : x ∈ l)
      (cx : Came (calls ++ [.push p]) before x) : Came calls before x :=
    ((came before x).mp cx).resolve_left fun last => other hx last.2
  constructor
  · intro x
    rw [List.mem_append, List.mem_singleton, h.came, or_comm]
    simp only [came, exists_or, exists_eq_left]
  · refine List.pairwise_append.mpr ⟨?_, List.pairwise_singleton _ _, ?_⟩
    · refine h.sorted.imp_of_mem fun hx hy lt before before' cx cy => ?_
      exact lt before before' (older hx cx) (older hy cy)
    · intro x hx y hy before before' cx cy
      obtain rfl := List.mem_singleton.mp hy
      rcases (came before' y).mp cy with ⟨rfl, -⟩ | again
      · exact (older hx cx).length_lt
      · exact absurd again.stays new

/-- What a plain list holds after a call. -/
theorem serveList (h : InOrder calls l) (once : l.Pairwise fun x y => x.parts ≠ y.parts)
    (call : Call) : InOrder (calls ++ [call]) (serveList l call).2 := by
  unfold Pending.serveList
  cases call with
  | push p =>
    have known : l.contains p = true ↔ Stays calls p := by
      rw [h.stays_iff, List.contains_eq_any_beq, List.any_eq_true]
      simp only [Path.beq_iff, eq_comm (a := p.parts)]
    dsimp only
    split
    next there =>
      refine h.kept (fun x push => ?_) (List.Sublist.refl l) fun x => by simp [Call.Takes]
      rw [← Call.push.inj push]
      exact known.mp there
    next new => exact h.added fun stays => new (known.mpr stays)
  | remove p =>
    refine h.kept nofun List.erase_sublist fun x => ?_
    change x ∈ l.erase p ↔ x ∈ l ∧ ¬ p.parts = x.parts
    rw [erase_once once, List.mem_filter, Bool.not_eq_true', Path.beq_false_iff,
      ne_eq, eq_comm (a := x.parts)]
  | contains p => exact h.kept nofun (List.Sublist.refl l) fun x => by simp [Call.Takes]
  | drain => exact h.kept nofun (List.nil_sublist l) fun x => by simp [Call.Takes]
  | isEmpty => exact h.kept nofun (List.Sublist.refl l) fun x => by simp [Call.Takes]

end InOrder

theorem serveAll_concat {α : Type} (serve : α → Call → Answer × α) (a : α) :
    (serveAll serve a (calls ++ [call])).2 = (serve (serveAll serve a calls).2 call).2 := by
  induction calls generalizing a with
  | nil => rfl
  | cons first calls ih => exact ih _

theorem serveAll_inOrder (calls : List Call) : InOrder calls (serveAll serve {} calls).2.order := by
  induction calls using List.reverseRecOn with
  | nil =>
    refine ⟨fun p => ⟨nofun, ?_⟩, .nil⟩
    rintro ⟨before, came⟩
    exact absurd came.length_lt (Nat.not_lt_zero _)
  | append_singleton calls call ih =>
    have valid := (valid_empty.serveAll calls).2.2
    rw [serveAll_concat, (valid.serve call).2.1]
    exact ih.serveList valid.once call

/-- Whatever calls come, from no paths at all: they are answered as on a plain list, the list holds
no path twice and the set beside it the same paths, and the list goes by the first arrival of a
path since it was last taken out. -/
theorem serves_as_queue (calls : List Call) :
    let answers := (serveAll serve {} calls).1
    let q := (serveAll serve {} calls).2
    (answers, q.order) = serveAll serveList [] calls ∧
      q.order.Pairwise (fun x y => x.parts ≠ y.parts) ∧
      (∀ p : Path, (∃ m ∈ q.members, m.parts = p.parts) ↔ ∃ x ∈ q.order, x.parts = p.parts) ∧
      (∀ p, p ∈ q.order ↔ ∃ before, Came calls before p) ∧
      q.order.Pairwise fun x y => ∀ before before',
        Came calls before x → Came calls before' y → before.length < before'.length := by
  intro answers q
  obtain ⟨same, order, valid⟩ := valid_empty.serveAll calls
  have arrived : InOrder calls q.order := serveAll_inOrder calls
  refine ⟨Prod.ext same order, valid.once, fun p => ?_, arrived.came, arrived.sorted⟩
  rw [← contains_iff]
  exact valid.same p

/-- A path that was taken out comes back behind the others, in the spelling it comes in. -/
example :
    let a : Path := .ofText "a.ink"
    let b : Path := .ofText "b.ink"
    let a' : Path := .ofText "a.ink/"
    let both := ((({} : Pending).push a).2.push b).2
    (both.push a').1 = false ∧ ((both.remove a').2.push a').2.drain.1 = [b, a'] := by
  exact ⟨rfl, rfl⟩

end StoryBuild.Pending
