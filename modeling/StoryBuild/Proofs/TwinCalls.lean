import StoryBuild.Proofs.Looking
import StoryBuild.Proofs.TwinBatches

namespace StoryBuild.Engine

variable {κ : Type} [Compiler κ] {p q : Path} {a b : Engine (Trial κ)}

end StoryBuild.Engine
