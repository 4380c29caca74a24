import StoryBuild.Proofs.BatchRecord
import StoryBuild.Proofs.TwinEngines

namespace StoryBuild.Engine

variable {κ : Type} [Compiler κ] {p : Path} {a b : Engine (Trial κ)}

section Ask

omit [Compiler κ]

end Ask

omit [Compiler κ] in
theorem InStep.applyOutcome (h : InStep p a b) (m : Path) (diagnostics : List Diagnostic)
    (unhandled : List String) (artifact : Option Path) (time : Nat) :
    InStep p { a with graph := a.graph.applyOutcome m diagnostics unhandled artifact time }
      { b with graph := b.graph.applyOutcome m diagnostics unhandled artifact time } := by
  cases h with
  | mk fits => exact .mk (fits.applyOutcome m diagnostics unhandled artifact time)

omit [Compiler κ] in
theorem InStep.wall (h : InStep p a b) : b.wall = a.wall := by
  cases h
  rfl

omit [Compiler κ] in
theorem InStep.familyHasErrors (h : InStep p a b) (m : Path) :
    b.graph.familyHasErrors m = a.graph.familyHasErrors m := by
  cases h with
  | @mk g t trace fits =>
    obtain ⟨times, alike⟩ := fits.alike
    change g.familyHasErrors m = _
    rw [alike.graphs, FileGraph.retimed_familyHasErrors]

end StoryBuild.Engine
