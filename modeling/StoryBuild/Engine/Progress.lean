import StoryBuild.Engine.Basic
import StoryBuild.Rounding

namespace StoryBuild.Engine

variable {σ : Type}

/-- The least divisor, so that a timeout of nothing can be divided by. -/
def leastDivisor : Binary := ⟨1, -52⟩

/-- What one job counts. -/
def shareOf (e : Engine σ) (now : Nat) (j : Job) : Binary :=
  match j.state with
  | .queued => ⟨0, 0⟩
  | .complete => ⟨1, 0⟩
  | .compiling =>
    let timeout := secondsOf e.options.timeout
    let divisor := if timeout.below leastDivisor then leastDivisor else timeout
    let share := binary64.div (secondsOf (j.elapsed now)) divisor
    if Binary.below ⟨1, 0⟩ share then ⟨1, 0⟩ else share

/-- The mean of what the jobs count, as the bits of a number of 32 bits. -/
def progressBits (e : Engine σ) (now : Nat) : Nat :=
  if e.jobs.isEmpty then 0
  else
    let total := (e.jobs.map (e.shareOf now)).foldl binary64.add ⟨0, 0⟩
    let mean := binary64.div total (binary64.nearest e.jobs.length 1)
    let (n, d) := mean.fraction
    binary32.bits (binary32.nearest n d)

end StoryBuild.Engine
