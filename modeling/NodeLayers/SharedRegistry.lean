import NodeLayers.Configuration

namespace NodeLayers

/-- One access to the registry, made under its lock. -/
inductive Access
  | set (name : String) (node : Node)
  | clear
  | replaceAll (nodes : Table Node)
  | reprovision (c : Configuration)
  | get (name : String)
  | contains (name : String)
  | size
  | isEmpty
  | snapshot
deriving DecidableEq

inductive Answer
  | done
  | node (found : Option Node)
  | truth (holds : Bool)
  | count (n : Nat)
  | entries (es : List (String × Node))
deriving DecidableEq, Repr

/-- What an access answers, and the registry behind it. -/
def Registry.access (r : Registry) : Access → Answer × Registry
  | .set name node => (.done, r.insert name node)
  | .clear => (.done, ∅)
  | .replaceAll nodes => (.done, nodes)
  | .reprovision c => (.done, c.registry)
  | .get name => (.node (r.get? name), r)
  | .contains name => (.truth (r.contains name), r)
  | .size => (.count r.size, r)
  | .isEmpty => (.truth r.isEmpty, r)
  | .snapshot => (.entries r.sorted, r)

/-- The access with which a directive registers its node. -/
def Directive.publication (d : Directive) : Access :=
  .set d.effectiveName d.node

/-- What a client asks for: one access, or that a configuration be provisioned. -/
inductive Call
  | access (a : Access)
  | provision (c : Configuration)
deriving DecidableEq

/-- A client with what it has still to do. While it provisions a configuration, the deciding
directives that are not registered yet are pending: each has a thread of its own. -/
structure Client where
  pending : List Directive
  calls : List Call
deriving DecidableEq

def Client.start (calls : List Call) : Client :=
  ⟨[], calls⟩

/-- One step of a client, with the access that it makes. The next call waits for every pending
directive, and any of these may be next. -/
inductive Client.Step : Client → Option Access → Client → Prop
  | access {a calls} : Step ⟨[], .access a :: calls⟩ (some a) ⟨[], calls⟩
  | provision {c calls} : Step ⟨[], .provision c :: calls⟩ none ⟨c.deciding.values, calls⟩
  | publish {before d after calls} :
      Step ⟨before ++ d :: after, calls⟩ (some d.publication) ⟨before ++ after, calls⟩

structure Event where
  client : Nat
  access : Access
  answer : Answer
deriving DecidableEq

/-- Clients that share a registry, and the accesses made so far in their order. -/
structure SharedRegistry where
  registry : Registry
  clients : List Client
  history : List Event
deriving DecidableEq

namespace SharedRegistry

def start (programs : List (List Call)) : SharedRegistry :=
  ⟨∅, programs.map Client.start, []⟩

/-- Any client may go on next; an access is one step of all of them. -/
inductive Step : SharedRegistry → SharedRegistry → Prop
  | access {s : SharedRegistry} {i client client' a} :
      s.clients[i]? = some client → Client.Step client (some a) client' →
      Step s ⟨(s.registry.access a).2, s.clients.set i client',
        s.history ++ [⟨i, a, (s.registry.access a).1⟩]⟩
  | silent {s : SharedRegistry} {i client client'} :
      s.clients[i]? = some client → Client.Step client none client' →
      Step s { s with clients := s.clients.set i client' }

/-- The states that the clients can come to with these programs. -/
inductive Reachable (programs : List (List Call)) : SharedRegistry → Prop
  | start : Reachable programs (start programs)
  | step {s s'} : Reachable programs s → Step s s' → Reachable programs s'

def log (s : SharedRegistry) : List Access :=
  s.history.map Event.access

/-- The accesses of one client. -/
def logOf (s : SharedRegistry) (i : Nat) : List Access :=
  (s.history.filter fun e => e.client = i).map Event.access

end SharedRegistry

end NodeLayers
