import Precedence.Json.Format
import Precedence.Traversal.EdgeKind

/-!
# States and kinds in documents

Node states and edge kinds are written by name.
-/

namespace Precedence.Manifest

instance : Json.Format NodeState := .ofNames NodeState.all NodeState.name

instance : Json.Format EdgeKind := .ofNames EdgeKind.all EdgeKind.name

end Precedence.Manifest
