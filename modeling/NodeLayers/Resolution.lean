import NodeLayers.App
import NodeLayers.Directive

namespace NodeLayers

inductive Resolution
  | site (node : Node)
  | named (node : Node)
  | defaults (app : App)
deriving DecidableEq

namespace Resolution

/-- A registered node comes first, then a named block, then the defaults. -/
def find (name : String) (r : Registry) (a : App) : Resolution :=
  match r.get? name with
  | some node => .site node
  | none =>
    match a.nodes.get? name with
    | some node => .named node
    | none => .defaults a

def node? : Resolution → Option Node
  | .site node | .named node => some node
  | .defaults _ => none

end Resolution

end NodeLayers
