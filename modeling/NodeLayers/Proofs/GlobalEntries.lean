import NodeLayers.Proofs.FailedEntry
import NodeLayers.Proofs.OptionReading
import NodeLayers.Proofs.SameBlock
import NodeLayers.Proofs.SegmentRun

namespace NodeLayers

/-- A line of the global option with one option: the keyword and as many arguments as it takes. -/
structure OptionLine where
  name : Token
  args : List Token
  keyword : Keyword
  text_name : name.text = keyword.text
  global : keyword ≠ .hostname ∧ keyword ≠ .port
  plain : ∀ a ∈ args, a.opens = false
  oneLine : OneLine (name :: args)
  single : keyword ≠ .tags → args.length ≤ 1

namespace OptionLine

def setting? (o : OptionLine) : Option Setting :=
  o.keyword.setting? (o.args.map Token.text)

def tags (o : OptionLine) : List String :=
  if o.keyword = .tags then o.args.map Token.text else []

end OptionLine

/-- A name that is no keyword of the global option, with a block behind it. -/
structure NamedBlock where
  name : Token
  brace : Token
  body : List Token
  last : Token
  free : LacksOption (∅ : App) name
  plain : name.closes = false ∧ name.opens = false
  line : name.sharesLine brace = true
  opens : brace.opens = true
  balanced : Balanced body
  closes : last.closes = true

/-- The block alone, to be read behind its name. -/
def NamedBlock.alone (b : NamedBlock) : Cursor :=
  ⟨[b.name], b.brace :: b.body ++ [b.last], 0⟩

/-- What the options of the block make of an empty node. -/
def NamedBlock.node (b : NamedBlock) : Node :=
  ⟨b.name.text, (readOptions (∅ : Settings) b.alone).record⟩

inductive EntryLines
  | option (line : OptionLine)
  | node (block : NamedBlock)

namespace EntryLines

def name : EntryLines → Token
  | .option o => o.name
  | .node b => b.name

def behind : EntryLines → List Token
  | .option o => o.args
  | .node b => b.brace :: b.body ++ [b.last]

def tokens (r : EntryLines) : List Token :=
  r.name :: r.behind

def line? : EntryLines → Option OptionLine
  | .option o => some o
  | .node _ => none

def block? : EntryLines → Option NamedBlock
  | .option _ => none
  | .node b => some b

def isNode (r : EntryLines) : Bool :=
  r.block?.isSome

/-- The same entry at another place. -/
inductive Same : EntryLines → EntryLines → Prop
  | option {o o'} : o.name.text = o'.name.text →
      o.args.map Token.text = o'.args.map Token.text → Same (.option o) (.option o')
  | node {b b'} (p q : Location) :
      List.Forall₂ (Token.Matches p q) (tokens (.node b)) (tokens (.node b')) →
      Same (.node b) (.node b')

/-- What the lines say when they are read on their own. -/
inductive Says : EntryLines → App.Entry → Prop
  | option {o s} : o.setting? = some s → Says (.option o) (.setting s)
  | node {b settings} : (readOptions (∅ : Settings) b.alone).result = .ok settings →
      Says (.node b) (.node ⟨b.name.text, settings⟩)

end EntryLines

/-- The tokens of a global option without arguments, with these entries between the braces. An
option ends its line. -/
def OptionSegment (rows : List EntryLines) (s : Segment) : Prop :=
  ∃ name brace last, name.sharesLine brace = true ∧ brace.opens = true ∧ last.closes = true ∧
    LinesEnd (rows.map EntryLines.tokens) [last] ∧
    s = name :: keptBlock brace (rows.map EntryLines.tokens).flatten last

namespace NamedBlock

variable (b : NamedBlock) (passed rest : List Token) (n : Nat)

/-- The cursor on the name, and the cursor behind the block. -/
def start : Cursor :=
  ⟨b.name :: passed, (b.brace :: b.body ++ [b.last]) ++ rest, n⟩

def finish : Cursor :=
  ⟨(b.brace :: b.body ++ [b.last]).reverse ++ b.name :: passed, rest, n⟩

theorem opensBehind :
    (b.start passed rest n).OpensBehind b.name [] b.brace (b.body ++ b.last :: rest) :=
  ⟨rfl, by simp [start], by simp, oneLine_pair.mpr b.line, b.opens⟩

theorem opensBlock : (b.start passed rest n).opensBlock = true := by
  rw [start, List.cons_append, List.cons_append, Cursor.opensBlock_cons, b.opens, b.line]
  rfl

variable {passed rest n} in
theorem read_of_segment {block : List Token} {d : Cursor}
    (h : (b.start passed rest n).segment = (b.name :: block, d)) :
    Node.read (b.start passed rest n) =
      ((readOptions (∅ : Settings) ⟨[b.name], block, 0⟩).result.map (⟨b.name.text, ·⟩), d) := by
  rw [Node.read_eq rfl (b.opensBlock passed rest n) (congrArg Prod.fst h), h]

theorem read_of_plain (h : ∀ t ∈ b.body.head?, t.opens = false) :
    Node.read (b.start passed rest n) =
      ((readOptions (∅ : Settings) b.alone).result.map (⟨b.name.text, ·⟩),
        b.finish passed rest n) := by
  have hopen := b.opensBehind passed rest n
  have hbalanced := b.balanced
  cases hbody : b.body with
  | nil =>
    rw [hbody, List.nil_append] at hopen
    have hsegment := hopen.segment_empty b.closes
    have hkept : Cursor.nextInBlock ⟨[b.name], [], 0⟩ 0 = (false, ⟨[b.name], [], 0⟩) :=
      Cursor.nextInBlock_none (Nat.le_refl 0) (by simp)
    have halone : b.alone.nextInBlock 0 = (false, ⟨[b.last, b.brace, b.name], [], 0⟩) := by
      rw [alone, hbody]
      exact Cursor.nextInBlock_empty (Nat.le_refl 0) b.line b.opens b.closes
    rw [b.read_of_segment hsegment, readOptions_of_false hkept, readOptions_of_false halone,
      finish, hbody]
    rfl
  | cons first inner =>
    rw [hbody] at h hopen hbalanced
    have hinner := hbalanced.tail (h first rfl)
    have hsegment := hopen.segment_full
      ⟨List.cons_append, hbalanced.closes_first, hinner, b.closes⟩
    rw [b.read_of_segment hsegment, alone, finish, hbody]
    rfl

/-- A second brace behind the first is read as the name of an option, which it is not. -/
theorem read_of_brace {t : Token} {inner : List Token} (hbody : b.body = t :: inner)
    (ht : t.opens = true) :
    (∃ e, (readOptions (∅ : Settings) b.alone).result = .error e) ∧
      ∃ e f, Node.read (b.start passed rest n) = (.error e, f) := by
  have hopen := b.opensBehind passed rest n
  have hbalanced := b.balanced
  rw [hbody] at hopen hbalanced
  obtain ⟨inside, close, more, rfl, hinside, hclose, _⟩ := hbalanced.exists_close ht
  constructor
  · rw [alone, hbody]
    exact Filling.exists_error (readOptions_second_brace b.line b.opens ht)
  · have hfull : FullBlock (t :: (inside ++ close :: more) ++ b.last :: rest) t inside close
        (more ++ b.last :: rest) :=
      ⟨by simp, Token.not_closes_of_opens ht, hinside, hclose⟩
    have hsegment := hopen.segment_full hfull
    obtain ⟨e, he⟩ : ∃ e, (readOptions (∅ : Settings)
        ⟨[b.name], b.brace :: t :: (inside ++ [close]), 0⟩).result = .error e :=
      Filling.exists_error (readOptions_second_brace b.line b.opens ht)
    have hread := b.read_of_segment hsegment
    rw [List.nil_append, List.cons_append, List.cons_append, he] at hread
    exact ⟨e, _, hread⟩

end NamedBlock

namespace EntryLines

variable {r : EntryLines} {x y : App.Entry} {passed rest : List Token} {n : Nat}

theorem Says.unique (hx : r.Says x) (hy : r.Says y) : x = y := by
  cases hx with
  | option hs =>
    cases hy with
    | option hs' => rw [Option.some.inj (hs.symm.trans hs')]
  | node hs =>
    cases hy with
    | node hs' => rw [Except.ok.inj (hs.symm.trans hs')]

theorem keyword?_option (o : OptionLine) (a : App) :
    OptionRecord.keyword? a o.name.text = some o.keyword :=
  keyword?_of_takes o.text_name (decide_eq_true o.global)

theorem plain_name (r : EntryLines) : r.name.closes = false ∧ r.name.opens = false := by
  cases r with
  | option o => exact plain_of_keyword? (keyword?_option o ∅)
  | node b => exact b.plain

/-- The entry is read as what its lines say on their own, or neither can be read. -/
def ReadAlone (r : EntryLines) (a : App) (passed rest : List Token) (n : Nat) : Prop :=
  (∃ x, r.Says x ∧ a.readEntry ⟨r.name :: passed, r.behind ++ rest, n⟩ =
      (.ok (a.put x), ⟨r.behind.reverse ++ r.name :: passed, rest, n⟩)) ∨
    (∀ x, ¬r.Says x) ∧
      ∃ e f, a.readEntry ⟨r.name :: passed, r.behind ++ rest, n⟩ = (.error e, f)

theorem readAlone_option (o : OptionLine) (a : App) (passed : List Token) (n : Nat)
    (hline : EndsLine (o.name :: o.args) rest) : ReadAlone (.option o) a passed rest n := by
  have htakes : Takes o.keyword o.name o.args rest :=
    ⟨o.oneLine, o.plain, o.single, fun _ last hlast u hu _ => hline last hlast u hu⟩
  have htext : Cursor.text ⟨o.name :: passed, o.args ++ rest, n⟩ = o.name.text := rfl
  simp only [ReadAlone, name, behind, App.readEntry, htext, keyword?_option o a]
  cases hs : o.setting? with
  | some s =>
    rw [Cursor.setting_of_some htakes hs]
    exact Or.inl ⟨.setting s, .option hs, rfl⟩
  | none =>
    obtain ⟨_, hresult⟩ := Cursor.setting_of_takes htakes passed n
    have hnone := hresult.trans hs
    refine Or.inr ⟨fun x hx => ?_, ?_⟩
    · cases hx with
      | option hs' => cases hs.symm.trans hs'
    · cases hset : Cursor.setting ⟨o.name :: passed, o.args ++ rest, n⟩ o.keyword with
      | mk result f =>
        rw [hset] at hnone
        cases result with
        | ok s => cases hnone
        | error e => exact ⟨e, f, rfl⟩

theorem readAlone_node (b : NamedBlock) (a : App) (passed rest : List Token) (n : Nat) :
    ReadAlone (.node b) a passed rest n := by
  have hentry : a.readEntry (b.start passed rest n) =
      (Node.read (b.start passed rest n)).map (·.map a.putNode) id :=
    App.readEntry_of_lacksOption (t := b.name) b.free rfl
  have hfailed : ∀ e, (readOptions (∅ : Settings) b.alone).result = .error e →
      ∀ x, ¬Says (.node b) x := by
    intro e he x hx
    cases hx with
    | node hs => cases he.symm.trans hs
  by_cases hfirst : ∀ t ∈ b.body.head?, t.opens = false
  · rw [b.read_of_plain passed rest n hfirst] at hentry
    cases hresult : (readOptions (∅ : Settings) b.alone).result with
    | ok settings =>
      rw [hresult] at hentry
      exact Or.inl ⟨_, .node hresult, hentry⟩
    | error e =>
      rw [hresult] at hentry
      exact Or.inr ⟨hfailed e hresult, e, _, hentry⟩
  · -- such a block is cut short, but what is left of it is refused as the whole is
    obtain ⟨t, ht, hopens⟩ : ∃ t ∈ b.body.head?, t.opens = true := by simpa using hfirst
    obtain ⟨inner, hbody⟩ := List.head?_eq_some_iff.mp ht
    obtain ⟨⟨e, he⟩, e', f, hread⟩ := b.read_of_brace passed rest n hbody hopens
    rw [hread] at hentry
    exact Or.inr ⟨hfailed e he, e', f, hentry⟩

theorem readAlone (r : EntryLines) (a : App) (passed : List Token) (n : Nat)
    (hends : (∀ t ∈ r.tokens, t.opens = false) → EndsLine r.tokens rest) :
    r.ReadAlone a passed rest n := by
  cases r with
  | option o =>
    refine readAlone_option o a passed n (hends fun t ht => ?_)
    rcases List.mem_cons.mp ht with rfl | ht
    · exact (plain_name (.option o)).2
    · exact o.plain t ht
  | node b => exact readAlone_node b a passed rest n

end EntryLines

namespace App

theorem readBlock_congr {c d : Cursor} (h : c.nextInBlock 0 = d.nextInBlock 0) (a : App) :
    a.readBlock c = a.readBlock d := by
  cases hd : d.nextInBlock 0 with
  | mk more e =>
    rw [hd] at h
    cases more with
    | false => rw [readBlock_of_false h, readBlock_of_false hd]
    | true =>
      cases hs : a.readEntry e with
      | mk result f =>
        cases result with
        | error _ => rw [readBlock_of_error h hs, readBlock_of_error hd hs]
        | ok _ => rw [readBlock_of_ok h hs, readBlock_of_ok hd hs]

variable {a b : App} {rows : List EntryLines} {t last : Token} {s : Segment}

theorem readBlock_rows (hl : last.closes = true)
    (hlines : LinesEnd (rows.map EntryLines.tokens) [last]) (passed : List Token) :
    (∃ f, a.readBlock ⟨passed, (rows.map EntryLines.tokens).flatten ++ [last], 1⟩ =
        ⟨b, f, none⟩) ↔
      ∃ entries, List.Forall₂ EntryLines.Says rows entries ∧ b = entries.foldl put a := by
  induction rows generalizing a passed with
  | nil =>
    rw [List.map_nil, List.flatten_nil, List.nil_append,
      readBlock_of_false (Cursor.nextInBlock_close hl)]
    constructor
    · rintro ⟨f, hf⟩
      cases hf
      exact ⟨[], .nil, rfl⟩
    · rintro ⟨entries, hsays, rfl⟩
      cases hsays
      exact ⟨_, rfl⟩
  | cons r rows ih =>
    obtain ⟨hends, hrest⟩ := hlines
    obtain ⟨hc, ho⟩ := r.plain_name
    have hmove : Cursor.nextInBlock
        ⟨passed, r.name :: (r.behind ++ ((rows.map EntryLines.tokens).flatten ++ [last])), 1⟩ 0 =
        (true, ⟨r.name :: passed,
          r.behind ++ ((rows.map EntryLines.tokens).flatten ++ [last]), 1⟩) :=
      Cursor.nextInBlock_plain hc ho
    have htokens : ((r :: rows).map EntryLines.tokens).flatten ++ [last] =
        r.name :: (r.behind ++ ((rows.map EntryLines.tokens).flatten ++ [last])) := by
      simp [EntryLines.tokens]
    rw [htokens]
    rcases r.readAlone a passed 1 hends with ⟨x, hx, hread⟩ | ⟨hnone, e, f, hread⟩
    · rw [readBlock_of_ok hmove hread, ih hrest]
      constructor
      · rintro ⟨entries, hsays, rfl⟩
        exact ⟨x :: entries, .cons hx hsays, rfl⟩
      · rintro ⟨entries, hsays, rfl⟩
        cases hsays with
        | cons hy hsays =>
          obtain rfl := hx.unique hy
          exact ⟨_, hsays, rfl⟩
    · rw [readBlock_of_error hmove hread]
      constructor
      · rintro ⟨g, hg⟩
        cases hg
      · rintro ⟨entries, hsays, rfl⟩
        cases hsays with
        | cons hy _ => exact absurd hy (hnone _)

theorem read_eq_ok_iff {ts : List Token} :
    (App.read (.ofTokens (t :: ts))).1 = .ok a ↔
      ∃ f, (∅ : App).readBlock ⟨[t], ts, 0⟩ = ⟨a, f, none⟩ := by
  have hnext : Cursor.next? (.ofTokens (t :: ts)) = some ⟨[t], ts, 0⟩ := rfl
  rw [read, hnext]
  simp only
  generalize (∅ : App).readBlock ⟨[t], ts, 0⟩ = filling
  obtain ⟨record, f, failure⟩ := filling
  cases failure <;> simp

/-- A global option is read just when each of its entries can be read on its own, and then it is
what they say one after the other. -/
theorem read_rows (h : OptionSegment rows s) :
    (App.read (.ofTokens s)).1 = .ok a ↔
      ∃ entries, List.Forall₂ EntryLines.Says rows entries ∧ a = entries.foldl put ∅ := by
  obtain ⟨name, brace, last, hs, hb, hl, hlines, rfl⟩ := h
  rw [read_eq_ok_iff]
  cases rows with
  | nil =>
    have hend : Cursor.nextInBlock ⟨[name], [], 0⟩ 0 = (false, ⟨[name], [], 0⟩) :=
      Cursor.nextInBlock_none (Nat.le_refl 0) (by simp)
    rw [List.map_nil, List.flatten_nil, keptBlock, if_pos rfl, readBlock_of_false hend]
    constructor
    · rintro ⟨f, hf⟩
      cases hf
      exact ⟨[], .nil, rfl⟩
    · rintro ⟨entries, hsays, rfl⟩
      cases hsays
      exact ⟨_, rfl⟩
  | cons r rows =>
    obtain ⟨hc, ho⟩ := r.plain_name
    have hkept : keptBlock brace ((r :: rows).map EntryLines.tokens).flatten last =
        brace :: r.name :: (r.behind ++ ((rows.map EntryLines.tokens).flatten ++ [last])) := by
      simp [keptBlock, EntryLines.tokens]
    have hinside : ((r :: rows).map EntryLines.tokens).flatten ++ [last] =
        r.name :: (r.behind ++ ((rows.map EntryLines.tokens).flatten ++ [last])) := by
      simp [EntryLines.tokens]
    rw [← readBlock_rows hl hlines [brace, name], hkept, hinside,
      readBlock_congr ((Cursor.nextInBlock_enter (Nat.le_refl 0) hs hb hc).trans
        (Cursor.nextInBlock_plain hc ho).symm)]

end App

end NodeLayers
