import StoryBuild.Path.Basic

namespace StoryBuild

/-- The waiting paths, each once and in the order of their arrival, and the same paths as a set. -/
structure Pending where
  order : List Path := []
  members : List Path := []

namespace Pending

instance : Inhabited Pending := ⟨{}⟩

/-- Whether nothing waits. -/
def isEmpty (q : Pending) : Bool :=
  q.order.isEmpty

/-- How many paths wait. -/
def size (q : Pending) : Nat :=
  q.order.length

/-- Whether a path waits. -/
def contains (q : Pending) (p : Path) : Bool :=
  q.members.any (· == p)

/-- Adds a path at the end unless it waits already; says whether it was added. -/
def push (q : Pending) (p : Path) : Bool × Pending :=
  if q.contains p then (false, q) else (true, ⟨q.order ++ [p], p :: q.members⟩)

/-- Takes a path out; says whether it was there. -/
def remove (q : Pending) (p : Path) : Bool × Pending :=
  if q.contains p then
    (true, ⟨q.order.filter fun x => !(x == p), q.members.filter fun x => !(x == p)⟩)
  else (false, q)

/-- Takes all paths out. -/
def drain (q : Pending) : List Path × Pending :=
  (q.order, {})

end Pending

end StoryBuild
