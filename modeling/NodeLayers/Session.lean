import NodeLayers.Configuration
import NodeLayers.JsonRecord

namespace NodeLayers

/-- What is held between two calls: the configuration loaded last, and the registered nodes. -/
structure Session where
  configuration : Configuration
  registry : Registry
deriving DecidableEq

namespace Session

instance : EmptyCollection Session :=
  ⟨⟨∅, ∅⟩⟩

instance : Inhabited Session :=
  ⟨∅⟩

inductive Action
  | load (source : Source) (text : String)
  | replaceApp (json : String)
  | provision
  | reprovision
  | provisionDirective (json : String)
  | clear
deriving DecidableEq, Repr

/-- A text that is refused changes nothing. -/
def step (s : Session) : Action → Session
  | .load source text =>
    match Configuration.ofText source text with
    | .ok loaded => { s with configuration := loaded }
    | .error _ => s
  | .replaceApp json =>
    match App.ofJsonText json with
    | .ok app => { s with configuration := { s.configuration with app } }
    | .error _ => s
  | .provision => { s with registry := s.configuration.provision s.registry }
  | .reprovision => { s with registry := s.configuration.registry }
  | .provisionDirective json =>
    match Directive.ofJsonText json with
    | .ok d => { s with registry := d.provision s.registry }
    | .error _ => s
  | .clear => { s with registry := ∅ }

/-- The actions one after the other, on nothing loaded and nothing registered. -/
def run (actions : List Action) : Session :=
  actions.foldl step ∅

/-- What a name stands for at this time. -/
def find (s : Session) (name : String) : Resolution :=
  Resolution.find name s.registry s.configuration.app

end Session

end NodeLayers
