import NodeLayers.Proofs.Spelling

namespace NodeLayers

/-- Each of these parts ends its line. -/
def Laid : List (List Token) → List Token → Prop
  | [], _ => True
  | p :: ps, rest => EndsLine p (ps.flatten ++ rest) ∧ Laid ps rest

theorem Laid.linesEnd {ps : List (List Token)} {rest : List Token} (h : Laid ps rest) :
    LinesEnd ps rest := by
  induction ps with
  | nil => trivial
  | cons p ps ih => exact ⟨fun _ => h.1, ih h.2⟩

/-- Every block that these tokens open they close again, and none besides. -/
def Whole (ts : List Token) : Prop :=
  ∀ n us, LeavesAtEnd (n + 1) us → LeavesAtEnd (n + 1) (ts ++ us)

theorem whole_nil : Whole [] := fun _ _ h => h

theorem whole_cons {t : Token} {ts : List Token} (hc : t.closes = false) (ho : t.opens = false)
    (h : Whole ts) : Whole (t :: ts) := by
  intro n us hus
  refine ⟨Nat.succ_pos n, ?_⟩
  rw [Token.depthAfter_of_plain hc ho]
  exact h n us hus

theorem Whole.append {ts us : List Token} (ht : Whole ts) (hu : Whole us) : Whole (ts ++ us) := by
  intro n vs hvs
  rw [List.append_assoc]
  exact ht n _ (hu n vs hvs)

theorem Whole.block {brace last : Token} {ts : List Token} (h : Whole ts) (hb : brace.opens = true)
    (hl : last.closes = true) : Whole (brace :: ts ++ [last]) := by
  intro n us hus
  rw [List.append_assoc]
  refine ⟨Nat.succ_pos n, ?_⟩
  rw [Token.depthAfter_of_opens hb]
  refine h (n + 1) _ ⟨Nat.succ_pos _, ?_⟩
  rw [Token.depthAfter_of_closes hl]
  exact hus

theorem whole_flatten {parts : List (List Token)} (h : ∀ p ∈ parts, Whole p) :
    Whole parts.flatten := by
  induction parts with
  | nil => exact whole_nil
  | cons p ps ih =>
    rw [List.flatten_cons]
    exact (h p List.mem_cons_self).append (ih fun q hq => h q (List.mem_cons_of_mem p hq))

theorem Segment.Spelled.eq_cons {s : Segment} {ts : List Token} (h : s.Spelled ts) :
    ∃ t used, ts = t :: used ∧ t.closes = false ∧ t.opens = false := by
  cases h with
  | line header => exact ⟨_, _, rfl, header.closes, header.opens⟩
  | emptyBlock header => exact ⟨_, _, rfl, header.closes, header.opens⟩
  | block header => exact ⟨_, _, rfl, header.closes, header.opens⟩

/-- The tokens of a block whose keys stand on one line with the brace, and whose directives and
closing brace start lines of their own. -/
def Block.LaidOut (b : Block) (ts : List Token) : Prop :=
  ∃ brace last parts, ts = b.keys ++ brace :: (parts.flatten ++ [last]) ∧
    (∀ k ∈ b.keys, k.opens = false) ∧ OneLine (b.keys ++ [brace]) ∧ brace.opens = true ∧
    last.closes = true ∧ List.Forall₂ Segment.Spelled b.segments parts ∧ Laid parts [last]

theorem Block.LaidOut.readFrom {b : Block} {ts : List Token} (h : b.LaidOut ts) :
    b.ReadFrom ts := by
  obtain ⟨brace, last, parts, hts, hkeys, hline, hopens, hcloses, hparts, hlaid⟩ := h
  exact ⟨brace, last, parts, hts, hkeys, hline, hopens, hcloses, hparts, hlaid.linesEnd⟩

/-- A block's tokens as the directive in front of it keeps them: of an empty block nothing. -/
def keptBlock (brace : Token) (body : List Token) (last : Token) : List Token :=
  if body = [] then [] else brace :: body ++ [last]

/-- A directive with a block that begins with no brace, all on lines of their own. -/
theorem spelled_of_whole {t brace last : Token} {args body : List Token} (header : Header t args)
    (hline : OneLine (t :: (args ++ [brace]))) (hb : brace.opens = true) (hl : last.closes = true)
    (hbody : Whole body) (hfirst : ∀ u ∈ body.head?, u.closes = false ∧ u.opens = false) :
    Segment.Spelled (t :: args ++ keptBlock brace body last)
      (t :: args ++ brace :: body ++ [last]) := by
  unfold keptBlock
  cases body with
  | nil =>
    rw [if_pos rfl, List.append_nil, List.append_assoc]
    exact .emptyBlock header hline hb hl
  | cons first inner =>
    obtain ⟨hfc, hfo⟩ := hfirst first rfl
    have hinner : LeavesAtEnd 1 (inner ++ [last]) := by
      have hend : LeavesAtEnd 1 [last] := ⟨Nat.one_pos, by rw [Token.depthAfter_of_closes hl]; rfl⟩
      have hall := (hbody 0 [last] hend).2
      rwa [Token.depthAfter_of_plain hfc hfo] at hall
    rw [if_neg (List.cons_ne_nil first inner)]
    have hspelled := Segment.Spelled.block header hline hb hfc hinner
    simpa using hspelled

namespace Cursor

variable {t : Token} {as rest passed : List Token} {n : Nat}

theorem nextArg?_of_endsLine (h : EndsLine (t :: as) rest) :
    nextArg? ⟨as.reverse ++ t :: passed, rest, n⟩ = none := by
  obtain ⟨last, before, hlast, hrev, _⟩ := exists_last t as
  cases rest with
  | nil => exact nextArg?_of_nil rfl
  | cons u rest =>
    have hpassed : as.reverse ++ t :: passed = last :: (before ++ passed) := by
      rw [List.append_cons, hrev, List.cons_append]
    rw [hpassed]
    exact nextArg?_of_apart (h last hlast u rfl)

theorem args_of_block {brace : Token} (ha : ∀ a ∈ as, a.opens = false)
    (hline : OneLine (t :: (as ++ [brace]))) (hb : brace.opens = true) :
    args ⟨t :: passed, as ++ brace :: rest, n⟩ =
        (as, ⟨as.reverse ++ t :: passed, brace :: rest, n⟩) ∧
      opensBlock ⟨as.reverse ++ t :: passed, brace :: rest, n⟩ = true := by
  obtain ⟨last, before, _, hrev, hshares⟩ := exists_last t as
  have hpassed : as.reverse ++ t :: passed = last :: (before ++ passed) := by
    rw [List.append_cons, hrev, List.cons_append]
  have happend : OneLine ((t :: as) ++ [brace]) := hline
  have hargs : OneLine (t :: as) := List.IsChain.left_of_append happend
  refine ⟨args_of_line hargs ha ?_, ?_⟩
  · rw [hpassed]
    exact nextArg?_of_opens hb
  · rw [hpassed, opensBlock_cons, hb, hshares brace hline]
    rfl

/-- A directive ends with its block; one without a block, only where the line ends. -/
theorem segment_of_spelled {s : Segment} {used : List Token} (h : s.Spelled (t :: used))
    (he : (∀ u ∈ t :: used, u.opens = false) → EndsLine (t :: used) rest) :
    segment ⟨t :: passed, used ++ rest, n⟩ = (s, ⟨used.reverse ++ t :: passed, rest, n⟩) := by
  generalize hus : t :: used = us at h he
  cases h with
  | line header =>
    obtain ⟨rfl, rfl⟩ := List.cons.inj hus
    have hends := he fun u hu => (List.mem_cons.mp hu).elim (fun heq => heq ▸ header.opens)
      (header.args_opens u)
    obtain ⟨last, before, hlast, hrev, _⟩ := exists_last t used
    have hpassed : used.reverse ++ t :: passed = last :: (before ++ passed) := by
      rw [List.append_cons, hrev, List.cons_append]
    have hargs : args ⟨t :: passed, used ++ rest, n⟩ =
        (used, ⟨used.reverse ++ t :: passed, rest, n⟩) :=
      args_of_line header.oneLine header.args_opens (nextArg?_of_endsLine hends)
    have hopens : opensBlock ⟨used.reverse ++ t :: passed, rest, n⟩ = false := by
      rw [hpassed]
      cases rest with
      | nil => rfl
      | cons u rest => rw [opensBlock_cons, hends last hlast u rfl, Bool.and_false]
    rw [segment_of_line (by rw [hargs]; exact hpassed) (by rw [hargs]; exact hopens), hargs]
    rfl
  | @emptyBlock t' as brace last header hline hb hl =>
    rw [List.cons_append] at hus
    obtain ⟨rfl, rfl⟩ := List.cons.inj hus
    obtain ⟨hargs, hopens⟩ : args ⟨t :: passed, as ++ brace :: last :: rest, n⟩ =
          (as, ⟨as.reverse ++ t :: passed, brace :: last :: rest, n⟩) ∧ _ :=
      args_of_block header.args_opens hline hb
    rw [List.append_assoc, List.cons_append, List.cons_append, List.nil_append,
      segment_of_emptyBlock (by rw [hargs]; exact hopens) (by rw [hargs]) hl, hargs]
    simp [current?]
  | @block t' as brace first inner last header hline hb hf hl =>
    rw [List.cons_append, List.cons_append] at hus
    obtain ⟨rfl, rfl⟩ := List.cons.inj hus
    obtain ⟨hargs, hopens⟩ :
        args ⟨t :: passed, as ++ brace :: first :: (inner ++ last :: rest), n⟩ =
          (as, ⟨as.reverse ++ t :: passed, brace :: first :: (inner ++ last :: rest), n⟩) ∧ _ :=
      args_of_block header.args_opens hline hb
    have hahead : as ++ brace :: first :: inner ++ [last] ++ rest =
        as ++ brace :: first :: (inner ++ last :: rest) := by simp
    rw [hahead, segment_of_block (by rw [hargs]; exact hopens) (by rw [hargs]) hf hl, hargs]
    simp [current?]

theorem blockSegments_of_spelled {segments : List Segment} {parts : List (List Token)}
    {last : Token} (h : List.Forall₂ Segment.Spelled segments parts) (hl : last.closes = true)
    (hlines : LinesEnd parts (last :: rest)) (opening : Location) :
    blockSegments ⟨passed, parts.flatten ++ last :: rest, 0⟩ opening =
      .ok (segments, ⟨last :: parts.flatten.reverse ++ passed, rest, 0⟩) := by
  induction h generalizing passed with
  | nil => exact blockSegments_of_close next?_cons (by simpa [atClose, current?] using hl)
  | @cons s p ss ps hs _ ih =>
    obtain ⟨t, used, rfl, hc, ho⟩ := hs.eq_cons
    obtain ⟨hends, hrest⟩ := hlines
    have hsegment : segment ⟨t :: passed, used ++ (ps.flatten ++ last :: rest), 0⟩ =
        (s, ⟨used.reverse ++ t :: passed, ps.flatten ++ last :: rest, 0⟩) :=
      segment_of_spelled hs hends
    have hnext : next? ⟨passed, t :: used ++ (ps.flatten ++ last :: rest), 0⟩ =
        some ⟨t :: passed, used ++ (ps.flatten ++ last :: rest), 0⟩ := rfl
    rw [List.flatten_cons, List.append_assoc, blockSegments_of_segment hnext hc ho
      (by rw [hsegment]), hsegment, ih hrest]
    simp [Except.map]

theorem blockKeys_of_line {keys : List Token} {brace : Token} (hk : ∀ k ∈ keys, k.opens = false)
    (hline : OneLine (keys ++ [brace])) (hb : brace.opens = true) :
    ∃ d, next? ⟨passed, keys ++ brace :: rest, n⟩ = some d ∧
      d.blockKeys = .ok (keys, ⟨brace :: keys.reverse ++ passed, rest, n⟩) := by
  cases keys with
  | nil =>
    refine ⟨_, rfl, ?_⟩
    rw [blockKeys]
    exact if_pos (by simpa [atOpen, current?] using hb)
  | cons k ks =>
    obtain ⟨hargs, hopens⟩ : args ⟨k :: passed, ks ++ brace :: rest, n⟩ =
          (ks, ⟨ks.reverse ++ k :: passed, brace :: rest, n⟩) ∧ _ :=
      args_of_block (fun a ha => hk a (List.mem_cons_of_mem k ha)) hline hb
    have hplain : ¬atOpen ⟨k :: passed, ks ++ brace :: rest, n⟩ = true := by
      simpa [atOpen, current?] using hk k List.mem_cons_self
    refine ⟨⟨k :: passed, ks ++ brace :: rest, n⟩, rfl, ?_⟩
    rw [blockKeys, if_neg hplain]
    simp [hargs, hopens, current?, next?_cons]

theorem blocks_of_readFrom {d : Document} {parts : List (List Token)} {first : Bool}
    (h : List.Forall₂ Block.ReadFrom d parts)
    (hfirst : ∀ b ∈ d.head?, first = true ∨ b.isGlobal = false)
    (htail : ∀ b ∈ d.tail, b.isGlobal = false) :
    blocks ⟨passed, parts.flatten, 0⟩ first = .ok d := by
  induction h generalizing passed first with
  | nil => exact blocks_of_none rfl
  | @cons b p bs ps hb _ ih =>
    obtain ⟨brace, last, segments, rfl, hk, hline, ho, hl, hs, hlines⟩ := hb
    have htext : ((b.keys ++ brace :: (segments.flatten ++ [last])) :: ps).flatten =
        b.keys ++ brace :: (segments.flatten ++ last :: ps.flatten) := by simp
    obtain ⟨c, hc, hkeys⟩ : ∃ c, next? ⟨passed, b.keys ++ brace ::
          (segments.flatten ++ last :: ps.flatten), 0⟩ = some c ∧ _ :=
      blockKeys_of_line hk hline ho
    have hglobal : (b.keys.isEmpty && !first) = false := by
      rcases hfirst b rfl with hf | hg
      · rw [hf]
        exact Bool.and_false _
      · have hempty : b.keys.isEmpty = false := hg
        rw [hempty]
        rfl
    have hlines' : LinesEnd segments (last :: ps.flatten) := hlines.of_head? rfl
    rw [htext, blocks_of_block hc hkeys hglobal (blockSegments_of_spelled hs hl hlines' _),
      ih (fun b hb => Or.inr (htail b (List.mem_of_mem_head? hb)))
        (fun b hb => htail b (List.mem_of_mem_tail hb))]
    rfl

end Cursor

/-- Tokens are accepted just when they are read as blocks one after the other, of which only the
first may be without keys. -/
theorem Document.ofTokens_eq_ok_iff {ts : List Token} {d : Document} :
    Document.ofTokens ts = .ok d ↔
      (∃ parts, ts = parts.flatten ∧ List.Forall₂ Block.ReadFrom d parts) ∧
        ∀ b ∈ d.tail, b.isGlobal = false := by
  constructor
  · exact fun h => ⟨Cursor.readFrom_blocks h, Cursor.isGlobal_of_mem_tail h⟩
  · rintro ⟨⟨parts, rfl, hparts⟩, htail⟩
    exact Cursor.blocks_of_readFrom hparts (fun _ _ => Or.inl rfl) htail

/-- A document laid out line by line is read as its blocks. -/
theorem Document.ofTokens_of_laidOut {d : Document} {parts : List (List Token)}
    (h : List.Forall₂ Block.LaidOut d parts) (htail : ∀ b ∈ d.tail, b.isGlobal = false) :
    Document.ofTokens parts.flatten = .ok d :=
  ofTokens_eq_ok_iff.mpr ⟨⟨parts, rfl, h.imp fun _ _ => Block.LaidOut.readFrom⟩, htail⟩

end NodeLayers
