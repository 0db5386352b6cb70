import NodeLayers.Document
import NodeLayers.Proofs.Nesting
import Mathlib.Data.List.Forall2

namespace NodeLayers

/-- A directive's name and arguments: no brace opens a block here, and the name closes none. -/
structure Header (t : Token) (args : List Token) : Prop where
  closes : t.closes = false
  opens : t.opens = false
  args_opens : ∀ a ∈ args, a.opens = false
  oneLine : OneLine (t :: args)

/-- The tokens from which a directive was read. They are its own, and the braces of an empty block
besides. -/
inductive Segment.Spelled : Segment → List Token → Prop
  | line {t args} : Header t args → Spelled (t :: args) (t :: args)
  | emptyBlock {t args brace last} : Header t args → OneLine (t :: (args ++ [brace])) →
      brace.opens = true → last.closes = true → Spelled (t :: args) (t :: args ++ [brace, last])
  | block {t args brace first inner last} : Header t args → OneLine (t :: (args ++ [brace])) →
      brace.opens = true → first.closes = false → LeavesAtEnd 1 (inner ++ [last]) →
      Spelled (t :: args ++ brace :: first :: inner ++ [last])
        (t :: args ++ brace :: first :: inner ++ [last])

/-- The tokens from which a block was read: its keys, and between braces those of its directives. -/
def Block.Spelled (b : Block) (ts : List Token) : Prop :=
  ∃ brace last parts, ts = b.keys ++ brace :: (parts.flatten ++ [last]) ∧
    (∀ k ∈ b.keys, k.opens = false) ∧ brace.opens = true ∧ last.closes = true ∧
    List.Forall₂ Segment.Spelled b.segments parts

def Document.Spelled (d : Document) (ts : List Token) : Prop :=
  ∃ parts, ts = parts.flatten ∧ List.Forall₂ Block.Spelled d parts

/-- What follows stands on another line than the last of these tokens. -/
def EndsLine (ts rest : List Token) : Prop :=
  ∀ t ∈ ts.getLast?, ∀ u ∈ rest.head?, t.sharesLine u = false

theorem EndsLine.of_append {ts us rest : List Token} (h : EndsLine (ts ++ us) rest)
    (hne : us ≠ []) : EndsLine us rest := by
  intro t ht
  apply h t
  rwa [List.getLast?_append_of_ne_nil ts hne]

/-- Nothing behind the end of a line continues it. -/
theorem EndsLine.eq_nil {ts more rest : List Token} (h : EndsLine ts (more ++ rest)) (hne : ts ≠ [])
    (hl : OneLine (ts ++ more)) : more = [] := by
  cases more with
  | nil => rfl
  | cons u more =>
    obtain ⟨t, ht⟩ := Option.isSome_iff_exists.mp (List.getLast?_isSome.mpr hne)
    have hshares : t.sharesLine u = true := (List.isChain_append.mp hl).2.2 t ht u rfl
    rw [h t ht u rfl] at hshares
    cases hshares

/-- Of these directives each without a block ends its line. -/
def LinesEnd : List (List Token) → List Token → Prop
  | [], _ => True
  | p :: ps, rest =>
    ((∀ t ∈ p, t.opens = false) → EndsLine p (ps.flatten ++ rest)) ∧ LinesEnd ps rest

/-- The tokens that are read as a block. Of their layout only this counts: the keys stand on one
line with the brace, and a directive without a block ends its line. -/
def Block.ReadFrom (b : Block) (ts : List Token) : Prop :=
  ∃ brace last parts, ts = b.keys ++ brace :: (parts.flatten ++ [last]) ∧
    (∀ k ∈ b.keys, k.opens = false) ∧ OneLine (b.keys ++ [brace]) ∧ brace.opens = true ∧
    last.closes = true ∧ List.Forall₂ Segment.Spelled b.segments parts ∧ LinesEnd parts [last]

theorem Block.ReadFrom.spelled {b : Block} {ts : List Token} (h : b.ReadFrom ts) :
    b.Spelled ts := by
  obtain ⟨brace, last, parts, hts, hkeys, _, hopens, hcloses, hparts, _⟩ := h
  exact ⟨brace, last, parts, hts, hkeys, hopens, hcloses, hparts⟩

theorem LinesEnd.of_head? {ps : List (List Token)} {us vs : List Token} (h : LinesEnd ps us)
    (he : us.head? = vs.head?) : LinesEnd ps vs := by
  induction ps with
  | nil => trivial
  | cons p ps ih =>
    refine ⟨fun hp => ?_, ih h.2⟩
    intro t ht u hu
    rw [List.head?_append, ← he, ← List.head?_append] at hu
    exact h.1 hp t ht u hu

theorem exists_last (t : Token) (as : List Token) :
    ∃ last before, (t :: as).getLast? = some last ∧ as.reverse ++ [t] = last :: before ∧
      ∀ b, OneLine (t :: (as ++ [b])) → last.sharesLine b = true := by
  induction as generalizing t with
  | nil => exact ⟨t, [], rfl, rfl, fun b h => oneLine_pair.mp h⟩
  | cons a as ih =>
    obtain ⟨last, before, hlast, hrev, hshares⟩ := ih a
    refine ⟨last, before ++ [t], by rw [List.getLast?_cons_cons, hlast], ?_, fun b h => ?_⟩
    · rw [List.reverse_cons, hrev, List.cons_append]
    · exact hshares b (oneLine_cons_cons.mp h).2

namespace Cursor

theorem eq_of_current? {c : Cursor} {t : Token} (h : c.current? = some t) :
    ∃ passed, c = ⟨t :: passed, c.ahead, c.nesting⟩ := by
  obtain ⟨passed, hp⟩ := List.head?_eq_some_iff.mp h
  exact ⟨passed, by rw [← hp]⟩

theorem passed_ne_nil_of_current? {c : Cursor} {t : Token} (h : c.current? = some t) :
    c.passed ≠ [] := by
  obtain ⟨passed, hc⟩ := eq_of_current? h
  rw [hc]
  exact List.cons_ne_nil t passed

/-- Behind the arguments the line ends, unless a block opens there. -/
theorem endsLine_args {c : Cursor} {t : Token} (h : c.current? = some t)
    (hb : c.args.2.opensBlock = false) : EndsLine (t :: c.args.1) c.args.2.ahead := by
  intro last hlast u hu
  obtain ⟨passed, hc⟩ := eq_of_current? h
  obtain ⟨last', before, hlast', hrev, _⟩ := exists_last t c.args.1
  obtain rfl : last' = last := Option.some.inj (hlast'.symm.trans hlast)
  obtain ⟨rest, hrest⟩ := List.head?_eq_some_iff.mp hu
  have hpassed : c.args.2.passed = last' :: (before ++ passed) := by
    have hcpassed : c.passed = t :: passed := by rw [hc]
    rw [passed_args, hcpassed, List.append_cons, hrev, List.cons_append]
  have hend : c.args.2 = ⟨last' :: (before ++ passed), u :: rest, c.args.2.nesting⟩ := by
    rw [← hpassed, ← hrest]
  have hnone := nextArg?_args c
  rw [hend] at hb hnone
  cases hs : last'.sharesLine u with
  | false => rfl
  | true =>
    cases ho : u.opens with
    | true =>
      rw [opensBlock_cons, ho, hs] at hb
      cases hb
    | false =>
      rw [nextArg?_of_sharesLine hs ho] at hnone
      cases hnone

/-- A directive behind which the text goes on, at the nesting it started from. -/
theorem spelled_segment {c : Cursor} {t : Token} (h : c.current? = some t)
    (hc : t.closes = false) (ho : t.opens = false) (hn : c.segment.2.nesting = 0)
    (ha : c.segment.2.ahead ≠ []) :
    ∃ used, c.ahead = used ++ c.segment.2.ahead ∧ Segment.Spelled c.segment.1 (t :: used) ∧
      ((∀ u ∈ t :: used, u.opens = false) → EndsLine (t :: used) c.segment.2.ahead) := by
  have header : Header t c.args.1 :=
    ⟨hc, ho, fun a hm => opens_of_mem_args hm, oneLine_args c t h⟩
  have hpassed := passed_ne_nil_of_current? h
  have hargs := append_args c
  have hcur : c.current?.toList = [t] := by rw [h]; rfl
  have hs := segmented hpassed
  revert hn ha hs
  generalize c.segment.1 = s, c.segment.2 = d
  intro hn ha hs
  cases hs with
  | line hb =>
    rw [hcur]
    exact ⟨c.args.1, hargs.symm, .line header, fun _ => endsLine_args h hb⟩
  | @emptyBlock brace last rest hb he hl =>
    have hopens := opens_of_opensBlock hb he
    have hline := oneLine_args_append c hb he t h
    rw [hcur]
    rw [he] at hargs
    refine ⟨c.args.1 ++ [brace, last], by simp [← hargs], .emptyBlock header hline hopens hl, ?_⟩
    intro hplain
    rw [hplain brace (by simp)] at hopens
    cases hopens
  | brokenOff => exact absurd rfl ha -- the text ends with the brace
  | @block brace first inner last rest hb he hf hl =>
    have hopens := opens_of_opensBlock hb he
    have hline := oneLine_args_append c hb he t h
    rw [hcur]
    rw [he] at hargs
    refine ⟨c.args.1 ++ brace :: first :: inner ++ [last], by simp [← hargs],
      .block header hline hopens hf hl, ?_⟩
    intro hplain
    rw [hplain brace (by simp)] at hopens
    cases hopens
  | unclosed => exact absurd rfl ha

theorem spelled_blockSegments {c d : Cursor} {opening : Location} {segments : List Segment}
    (h : c.blockSegments opening = .ok (segments, d)) :
    ∃ parts last, c.ahead = parts.flatten ++ last :: d.ahead ∧ last.closes = true ∧
      List.Forall₂ Segment.Spelled segments parts ∧ LinesEnd parts [last] := by
  fun_induction blockSegments c opening generalizing segments d with
  | case1 => cases h
  | case2 c e he hclose =>
    cases h
    obtain ⟨u, rest, hu, rfl⟩ := next?_eq_some he
    exact ⟨[], u, hu, by simpa [atClose, current?] using hclose, .nil, trivial⟩
  | case3 => cases h
  | case4 => cases h
  | case5 => cases h
  | case6 c e he hclose hopen hnest _ _ inner last hrest ih =>
    cases h
    obtain ⟨parts, close, hahead, hc, hparts, hlines⟩ := ih hrest
    obtain ⟨u, rest, hu, rfl⟩ := next?_eq_some he
    obtain ⟨used, hused, hs, hends⟩ := spelled_segment (t := u) rfl
      (by simpa [atClose, current?] using hclose) (by simpa [atOpen, current?] using hopen)
      (Nat.eq_zero_of_not_pos hnest) (by rw [hahead]; simp)
    rw [hahead] at hused hends
    refine ⟨(u :: used) :: parts, close, ?_, hc, .cons hs hparts, fun hplain => ?_, hlines⟩
    · have hrest' : rest = used ++ (parts.flatten ++ close :: last.ahead) := hused
      rw [hu, hrest']
      simp
    · intro t ht v hv
      exact hends hplain t ht v (by simpa using hv)

theorem spelled_blockKeys {c brace : Cursor} {t : Token} {keys : List Token}
    (h : c.current? = some t) (hk : c.blockKeys = .ok (keys, brace)) :
    ∃ b, brace.current? = some b ∧ b.opens = true ∧ t :: c.ahead = keys ++ b :: brace.ahead ∧
      (∀ k ∈ keys, k.opens = false) ∧ OneLine (keys ++ [b]) := by
  unfold blockKeys at hk
  split at hk
  next hopen =>
    cases hk
    exact ⟨t, h, by simpa [atOpen, h] using hopen, rfl, by simp, List.IsChain.singleton t⟩
  next hopen =>
    simp only at hk
    split at hk
    next hb =>
      cases hk
      obtain ⟨_, _, b, rest, he, hbrace, _⟩ := eq_of_opensBlock hb
      have hargs := append_args c
      have hline := oneLine_args_append c hb (by rw [he]) t h
      rw [he] at hargs
      rw [he]
      refine ⟨b, rfl, hbrace, by simp [h, ← hargs, next?_cons], fun k hm => ?_, ?_⟩
      · rcases List.mem_append.mp hm with hm | hm
        · obtain rfl : k = t := by simpa [h] using hm
          simpa [atOpen, h] using hopen
        · exact opens_of_mem_args hm
      · simpa [h] using hline
    next => cases hk

variable {c : Cursor} {first : Bool} {b : Block} {d : Document}

theorem next?_of_blocks_nil (h : c.blocks first = .ok []) : c.next? = none := by
  revert h
  fun_cases blocks c first with
  | case1 hn => exact fun _ => hn
  | _ => exact nofun

theorem blocks_eq_cons (h : c.blocks first = .ok (b :: d)) :
    ∃ e brace last, c.next? = some e ∧ e.blockKeys = .ok (b.keys, brace) ∧
      (b.keys.isEmpty && !first) = false ∧
      brace.blockSegments brace.location = .ok (b.segments, last) ∧ last.blocks false = .ok d := by
  revert h
  fun_cases blocks c first with
  | case6 e hn keys brace hk hlate segments last hs _ _ _ rest hrest =>
    intro h
    cases h
    exact ⟨e, brace, last, hn, hk, by simpa using hlate, hs, hrest⟩
  | _ => exact nofun

theorem isGlobal_of_mem_blocks (h : c.blocks false = .ok d) : ∀ b ∈ d, b.isGlobal = false := by
  induction d generalizing c with
  | nil => simp
  | cons b d ih =>
    obtain ⟨_, _, last, _, _, hlate, _, hrest⟩ := blocks_eq_cons h
    intro x hx
    rcases List.mem_cons.mp hx with rfl | hm
    · simpa [Block.isGlobal] using hlate
    · exact ih hrest x hm

theorem isGlobal_of_mem_tail (h : c.blocks first = .ok d) : ∀ b ∈ d.tail, b.isGlobal = false := by
  cases d with
  | nil => simp
  | cons b d =>
    obtain ⟨_, _, last, _, _, _, _, hrest⟩ := blocks_eq_cons h
    exact isGlobal_of_mem_blocks hrest

theorem readFrom_blocks (h : c.blocks first = .ok d) :
    ∃ parts, c.ahead = parts.flatten ∧ List.Forall₂ Block.ReadFrom d parts := by
  induction d generalizing c first with
  | nil => exact ⟨[], next?_eq_none (next?_of_blocks_nil h), .nil⟩
  | cons b d ih =>
    obtain ⟨e, brace, last, hn, hk, _, hs, hrest⟩ := blocks_eq_cons h
    obtain ⟨parts, hahead, hparts⟩ := ih hrest
    obtain ⟨u, ahead, hu, rfl⟩ := next?_eq_some hn
    obtain ⟨opening, _, hbrace, hkeys, hopens, hline⟩ := spelled_blockKeys rfl hk
    obtain ⟨inner, close, hinner, hclose, hsegments, hlines⟩ := spelled_blockSegments hs
    refine ⟨(b.keys ++ opening :: (inner.flatten ++ [close])) :: parts, ?_,
      .cons ⟨opening, close, inner, rfl, hopens, hline, hbrace, hclose, hsegments, hlines⟩ hparts⟩
    have hkeys' : u :: ahead = b.keys ++ opening :: brace.ahead := hkeys
    rw [hu, hkeys', hinner, hahead]
    simp

end Cursor

theorem Document.spelled_ofTokens {ts : List Token} {d : Document}
    (h : Document.ofTokens ts = .ok d) : d.Spelled ts := by
  obtain ⟨parts, hahead, hparts⟩ := Cursor.readFrom_blocks h
  exact ⟨parts, hahead, hparts.imp fun _ _ => Block.ReadFrom.spelled⟩

theorem exists_of_mem_of_forall₂ {α β : Type} {r : α → β → Prop} {xs : List α} {ys : List β}
    (h : List.Forall₂ r xs ys) {x : α} (hx : x ∈ xs) : ∃ y ∈ ys, r x y := by
  induction h with
  | nil => cases hx
  | @cons a b as bs hr _ ih =>
    rcases List.mem_cons.mp hx with rfl | hm
    · exact ⟨b, List.mem_cons_self, hr⟩
    · obtain ⟨y, hy, hr⟩ := ih hm
      exact ⟨y, List.mem_cons_of_mem b hy, hr⟩

theorem Document.Spelled.segment {d : Document} {ts : List Token} (h : d.Spelled ts) {b : Block}
    (hb : b ∈ d) {s : Segment} (hs : s ∈ b.segments) : ∃ us, s.Spelled us := by
  obtain ⟨_, _, hparts⟩ := h
  obtain ⟨_, _, _, _, _, _, _, _, _, hsegments⟩ := exists_of_mem_of_forall₂ hparts hb
  obtain ⟨us, _, hus⟩ := exists_of_mem_of_forall₂ hsegments hs
  exact ⟨us, hus⟩

end NodeLayers
