import NodeLayers.App
import NodeLayers.Directive
import NodeLayers.Document

namespace NodeLayers

/-- What a document says: the global option, and the directives of its sites in order. -/
structure Configuration where
  app : App
  directives : List Directive
deriving DecidableEq

namespace Configuration

instance : EmptyCollection Configuration :=
  ⟨⟨∅, []⟩⟩

instance : Inhabited Configuration :=
  ⟨∅⟩

/-- The global option may be given once; without it the defaults say nothing. -/
def readApp : List Segment → Except ParseError App
  | [] => .ok ∅
  | [s] => (App.read (.ofTokens s)).1
  | s :: again :: _ => do
    let _ ← (App.read (.ofTokens s)).1
    let c := Cursor.ofTokens again
    .error ((c.next?.getD c).fail (.repeatedGlobalOption App.name))

/-- What the blocks of a document say; the first fault in the order of the text counts. -/
def ofDocument (d : Document) : Except ParseError Configuration := do
  let app ← readApp ((d.filter Block.isGlobal).flatMap (·.named App.name))
  let sites := (d.filter (!·.isGlobal)).flatMap (·.named Directive.name)
  let directives ← sites.mapM fun s => (Directive.read ∅ (.ofTokens s)).1
  .ok ⟨app, directives⟩

def ofText (source : Source) (text : String) : Except ParseError Configuration := do
  let tokens ← tokenize source text
  let document ← Document.ofTokens tokens
  ofDocument document

theorem bind_eq_ok {ε α β : Type} {x : Except ε α} {f : α → Except ε β} {b : β} :
    (x >>= f) = .ok b ↔ ∃ a, x = .ok a ∧ f a = .ok b := by
  cases x with
  | error e => simp [bind, Except.bind]
  | ok a => simp [bind, Except.bind]

theorem ofDocument_eq_ok_iff {d : Document} {c : Configuration} :
    ofDocument d = .ok c ↔
      readApp ((d.filter Block.isGlobal).flatMap (·.named App.name)) = .ok c.app ∧
        ((d.filter (!·.isGlobal)).flatMap (·.named Directive.name)).mapM
          (fun s => (Directive.read ∅ (.ofTokens s)).1) = .ok c.directives := by
  simp only [ofDocument, bind_eq_ok]
  constructor
  · rintro ⟨app, ha, directives, hd, hc⟩
    cases hc
    exact ⟨ha, hd⟩
  · rintro ⟨ha, hd⟩
    exact ⟨c.app, ha, c.directives, hd, rfl⟩

theorem ofText_eq {source : Source} {text : String} {ts : List Token} {d : Document}
    (ht : tokenize source text = .ok ts) (hd : Document.ofTokens ts = .ok d) :
    ofText source text = ofDocument d := by
  rw [ofText, ht]
  simp only [bind, Except.bind, hd]

/-- Only one segment of the global option is ever read to a result. -/
theorem readApp_eq_ok {segments : List Segment} {a : App} (h : readApp segments = .ok a)
    {s : Segment} (hs : s ∈ segments) : segments = [s] ∧ (App.read (.ofTokens s)).1 = .ok a := by
  match segments with
  | [] => cases hs
  | [r] =>
    obtain rfl : s = r := by simpa using hs
    exact ⟨rfl, h⟩
  | r :: again :: rest =>
    obtain ⟨_, _, he⟩ := bind_eq_ok.mp h
    cases he

/-- The directive that decides each node: the last one for it, at the place of the first. -/
def deciding (c : Configuration) : Table Directive :=
  .ofList (c.directives.map fun d => (d.effectiveName, d))

/-- Registers the deciding directives' nodes on top of what is registered already. -/
def provision (c : Configuration) (r : Registry) : Registry :=
  c.deciding.entries.foldl (fun r entry => entry.2.provision r) r

/-- The deciding directives' nodes and no others. -/
def registry (c : Configuration) : Registry :=
  .ofList (c.deciding.entries.map fun entry => (entry.2.node.name, entry.2.node))

end Configuration

end NodeLayers
