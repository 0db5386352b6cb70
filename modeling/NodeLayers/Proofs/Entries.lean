import NodeLayers.Proofs.Deciding
import NodeLayers.Proofs.LaidBlocks

namespace NodeLayers

def Setting.tagsOf : Setting → List String
  | .tags values => values
  | _ => []

namespace App

def Entry.setting? : Entry → Option Setting
  | .setting s => some s
  | .node _ => none

def Entry.node? : Entry → Option Node
  | .setting _ => none
  | .node v => some v

/-- What a global option says for a keyword that stands for one value. -/
def option? (a : App) : Keyword → Option Setting
  | .authKey => some (.authKey a.authKey)
  | .controlUrl => some (.controlUrl a.controlUrl)
  | .ephemeral => some (.ephemeral a.ephemeral)
  | .stateDir => some (.stateDir a.stateDir)
  | .webui => some (.webui a.webui)
  | .hostname | .port | .tags => none

theorem set_putNode (a : App) (v : Node) (s : Setting) :
    (a.putNode v).set s = (a.set s).putNode v := by
  cases s <;> rfl

theorem nodes_set (a : App) (s : Setting) : (a.set s).nodes = a.nodes := by
  cases s <;> rfl

theorem option?_set {s : Setting} {k : Keyword} (hk : k ∉ [.hostname, .port, .tags]) (a : App) :
    (a.set s).option? k = if s.keyword = k then some s else a.option? k := by
  cases s <;> cases k <;> first | rfl | simp at hk

theorem foldl_set_putNode (settings : List Setting) (a : App) (v : Node) :
    settings.foldl set (a.putNode v) = (settings.foldl set a).putNode v := by
  induction settings generalizing a with
  | nil => rfl
  | cons s settings ih => rw [List.foldl_cons, set_putNode, ih, List.foldl_cons]

/-- Options and named blocks do not meet, so that either can be applied first. -/
theorem foldl_put (entries : List Entry) (a : App) :
    entries.foldl put a =
      (entries.filterMap Entry.node?).foldl putNode
        ((entries.filterMap Entry.setting?).foldl set a) := by
  induction entries generalizing a with
  | nil => rfl
  | cons e entries ih =>
    rw [List.foldl_cons, ih]
    cases e with
    | setting s =>
      simp only [List.filterMap_cons, Entry.setting?, Entry.node?, List.foldl_cons, put]
    | node v =>
      simp only [List.filterMap_cons, Entry.setting?, Entry.node?, List.foldl_cons, put,
        foldl_set_putNode]

theorem foldl_putNode_eq (nodes : List Node) (a : App) :
    nodes.foldl putNode a = { a with
      nodes := (nodes.map fun v => (v.name, v)).foldl (fun t e => t.insert e.1 e.2) a.nodes } := by
  induction nodes generalizing a with
  | nil => rfl
  | cons v nodes ih => rw [List.foldl_cons, ih]; rfl

theorem nodes_foldl_set (settings : List Setting) (a : App) :
    (settings.foldl set a).nodes = a.nodes := by
  induction settings generalizing a with
  | nil => rfl
  | cons s settings ih => rw [List.foldl_cons, ih, nodes_set]

theorem nodes_foldl_put (entries : List Entry) (a : App) :
    (entries.foldl put a).nodes =
      ((entries.filterMap Entry.node?).map fun v => (v.name, v)).foldl
        (fun t e => t.insert e.1 e.2) a.nodes := by
  rw [foldl_put, foldl_putNode_eq, nodes_foldl_set]

/-- The last block under a name counts, and one that was there before if there is none. -/
theorem get?_foldl_put (entries : List Entry) (a : App) (n : String) :
    (entries.foldl put a).nodes.get? n =
      ((entries.filterMap Entry.node?).findRev? fun v => v.name == n).or (a.nodes.get? n) := by
  rw [nodes_foldl_put, Table.get?_foldl_insert, List.findRev?_eq_find?_reverse,
    List.findRev?_eq_find?_reverse, ← List.map_reverse, List.find?_map, Option.map_map]
  exact congrArg (Option.or · _) (congrFun Option.map_id _)

theorem keys_foldl_put (entries : List Entry) :
    (entries.foldl put ∅).nodes.keys =
      ((entries.filterMap Entry.node?).map Node.name).eraseDups := by
  have hkeys := Table.keys_ofList ((entries.filterMap Entry.node?).map fun v => (v.name, v))
  rw [List.map_map] at hkeys
  rw [nodes_foldl_put]
  exact hkeys

/-- Of the options with a keyword that stands for one value the last counts. -/
theorem option?_foldl_put {k : Keyword} (hk : k ∉ [.hostname, .port, .tags]) (entries : List Entry)
    (a : App) :
    (entries.foldl put a).option? k =
      ((entries.filterMap Entry.setting?).findRev? fun s => s.keyword = k).or (a.option? k) := by
  have hset : ∀ settings : List Setting, (settings.foldl set a).option? k =
      (settings.findRev? fun s => s.keyword = k).or (a.option? k) := by
    intro settings
    induction settings using List.reverseRecOn with
    | nil => rfl
    | append_singleton settings s ih =>
      rw [List.foldl_concat, option?_set hk, ih, List.findRev?_eq_find?_reverse,
        List.findRev?_eq_find?_reverse, List.reverse_append]
      by_cases hs : s.keyword = k <;> simp [hs]
  rw [foldl_put, foldl_putNode_eq, ← hset]
  cases k <;> rfl

theorem tags_foldl_put (entries : List Entry) (a : App) :
    (entries.foldl put a).tags =
      a.tags ++ (entries.filterMap Entry.setting?).flatMap Setting.tagsOf := by
  have hset : ∀ settings : List Setting, (settings.foldl set a).tags =
      a.tags ++ settings.flatMap Setting.tagsOf := by
    intro settings
    induction settings using List.reverseRecOn with
    | nil => simp
    | append_singleton settings s ih =>
      have hstep : ∀ b : App, (b.set s).tags = b.tags ++ s.tagsOf := by
        intro b
        cases s <;> simp [set, Setting.tagsOf]
      rw [List.foldl_concat, hstep, ih, List.flatMap_append, List.append_assoc]
      simp
  rw [foldl_put, foldl_putNode_eq]
  exact hset _

end App

end NodeLayers
