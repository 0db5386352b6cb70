import NodeLayers.Proofs.Spelling
import Mathlib.Algebra.Ring.Nat

namespace NodeLayers

/-- No part from the start closes more blocks than it opens, and the whole closes all of them. -/
def Balanced (ts : List Token) : Prop :=
  (∀ p, p <+: ts → p.countP Token.closes ≤ p.countP Token.opens) ∧
    ts.countP Token.closes = ts.countP Token.opens

/-- The blocks open behind a token, if it closes none that is not open. -/
def Token.level? (t : Token) (n : Nat) : Option Nat :=
  if t.closes then (if n = 0 then none else some (n - 1))
  else if t.opens then some (n + 1) else some n

def level? (n : Nat) (ts : List Token) : Option Nat :=
  ts.foldlM (fun m t => t.level? m) n

theorem level?_nil (n : Nat) : level? n [] = some n := rfl

theorem level?_cons (n : Nat) (t : Token) (ts : List Token) :
    level? n (t :: ts) = (t.level? n).bind (level? · ts) := by
  simp [level?, List.foldlM_cons]

theorem level?_append (n : Nat) (ts us : List Token) :
    level? n (ts ++ us) = (level? n ts).bind (level? · us) := by
  simp [level?, List.foldlM_append]

theorem level?_eq_some_iff {n m : Nat} {ts : List Token} :
    level? n ts = some m ↔
      (∀ p, p <+: ts → p.countP Token.closes ≤ n + p.countP Token.opens) ∧
        m + ts.countP Token.closes = n + ts.countP Token.opens := by
  induction ts generalizing n with
  | nil => simp [level?_nil, eq_comm]
  | cons t ts ih =>
    -- the empty part says nothing unless `t` closes a block that is not open
    have hstart : (∀ p, p <+: t :: ts → p.countP Token.closes ≤ n + p.countP Token.opens) ↔
        ∀ p, p <+: ts → (t :: p).countP Token.closes ≤ n + (t :: p).countP Token.opens := by
      constructor
      · exact fun h p hp => h (t :: p) (List.cons_prefix_cons.mpr ⟨rfl, hp⟩)
      · intro h p hp
        rcases List.prefix_cons_iff.mp hp with rfl | ⟨q, rfl, hq⟩
        · simp
        · exact h q hq
    rw [hstart, level?_cons]
    cases hc : t.closes with
    | true =>
      have ho : t.opens = false := Token.not_opens_of_closes hc
      cases n with
      | zero =>
        have hfirst : Token.level? t 0 = none := by simp [Token.level?, hc]
        rw [hfirst, Option.bind_none]
        constructor
        · intro h; cases h
        · intro h
          have := h.1 [] (List.nil_prefix)
          simp [hc, ho] at this
      | succ n =>
        have hfirst : Token.level? t (n + 1) = some n := by simp [Token.level?, hc]
        rw [hfirst, Option.bind_some, ih]
        simp only [List.countP_cons, hc, ho, ↓reduceIte, Bool.false_eq_true]
        constructor
        · exact fun h => ⟨fun p hp => by have := h.1 p hp; omega, by omega⟩
        · exact fun h => ⟨fun p hp => by have := h.1 p hp; omega, by omega⟩
    | false =>
      cases ho : t.opens with
      | true =>
        have hfirst : Token.level? t n = some (n + 1) := by simp [Token.level?, hc, ho]
        rw [hfirst, Option.bind_some, ih]
        simp only [List.countP_cons, hc, ho, ↓reduceIte, Bool.false_eq_true]
        constructor
        · exact fun h => ⟨fun p hp => by have := h.1 p hp; omega, by omega⟩
        · exact fun h => ⟨fun p hp => by have := h.1 p hp; omega, by omega⟩
      | false =>
        have hfirst : Token.level? t n = some n := by simp [Token.level?, hc, ho]
        rw [hfirst, Option.bind_some, ih]
        simp [hc, ho]

theorem balanced_iff_level? {ts : List Token} : Balanced ts ↔ level? 0 ts = some 0 := by
  rw [level?_eq_some_iff, Balanced]
  simp

/-- Tokens that lead out of the innermost `k` blocks leave the ones around them open. -/
theorem LeavesAtEnd.level? {k : Nat} {ts : List Token} (h : LeavesAtEnd k ts) (n : Nat) :
    NodeLayers.level? (n + k) ts = some n := by
  induction ts generalizing k with
  | nil =>
    have hk : k = 0 := h
    simp [level?_nil, hk]
  | cons t ts ih =>
    obtain ⟨hk, hts⟩ := h
    have hfirst : t.level? (n + k) = some (n + t.depthAfter k) := by
      unfold Token.level? Token.depthAfter
      split
      next => rw [if_neg (by omega)]; congr 1; omega
      next => split <;> rfl
    rw [level?_cons, hfirst, Option.bind_some, ih hts]

theorem level?_of_not_opens {n : Nat} {ts : List Token} (h : ∀ t ∈ ts, t.opens = false) :
    level? n ts =
      if ts.countP Token.closes ≤ n then some (n - ts.countP Token.closes) else none := by
  induction ts generalizing n with
  | nil => simp [level?_nil]
  | cons t ts ih =>
    have ho := h t List.mem_cons_self
    have hts := fun m => ih (n := m) fun u hu => h u (List.mem_cons_of_mem t hu)
    cases hc : t.closes with
    | false => simp [level?_cons, Token.level?, hc, ho, hts]
    | true =>
      cases n with
      | zero => simp [level?_cons, Token.level?, hc]
      | succ n => simp [level?_cons, Token.level?, hc, hts]

/-- The closing braces among a directive's name and arguments. -/
def Segment.strayCloses (s : Segment) : Nat :=
  (s.takeWhile (!·.opens)).countP Token.closes

/-- The opening brace with which a directive's block begins, if it does. -/
def Segment.strayOpens (s : Segment) : Nat :=
  match s.dropWhile (!·.opens) with
  | _ :: first :: _ => if first.opens then 1 else 0
  | _ => 0

def Block.strayCloses (b : Block) : Nat :=
  b.keys.countP Token.closes + (b.segments.map Segment.strayCloses).sum

def Block.strayOpens (b : Block) : Nat :=
  (b.segments.map Segment.strayOpens).sum

/-- The closing braces that are taken for keys or arguments. -/
def Document.strayCloses (d : Document) : Nat :=
  (d.map Block.strayCloses).sum

/-- The opening braces that are taken for the first word of a block. -/
def Document.strayOpens (d : Document) : Nat :=
  (d.map Block.strayOpens).sum

/-- The blocks that the braces leave open behind a directive: only those count here that the nesting
leaves out. -/
def Segment.level? (s : Segment) (n : Nat) : Option Nat :=
  if s.strayCloses ≤ n then some (n - s.strayCloses + s.strayOpens) else none

def Block.level? (b : Block) (n : Nat) : Option Nat :=
  if b.keys.countP Token.closes ≤ n then
    (b.segments.foldlM (fun m s => Segment.level? s m)
      (n - b.keys.countP Token.closes + 1)).bind fun m =>
      if m = 0 then none else some (m - 1)
  else none

def Document.level? (d : Document) (n : Nat) : Option Nat :=
  d.foldlM (fun m b => b.level? m) n

theorem level?_flatten {α : Type} {spelled : α → List Token → Prop} {step : Nat → α → Option Nat}
    {xs : List α} {parts : List (List Token)} (h : List.Forall₂ spelled xs parts)
    (hstep : ∀ x ts n, spelled x ts → level? n ts = step n x) (n : Nat) :
    level? n parts.flatten = xs.foldlM step n := by
  induction h generalizing n with
  | nil => rfl
  | cons hx _ ih =>
    rw [List.flatten_cons, level?_append, hstep _ _ _ hx, List.foldlM_cons]
    exact congrArg _ (funext ih)

theorem Header.takeWhile_eq {t : Token} {args : List Token} (h : Header t args) (rest : List Token)
    (hr : ∀ u ∈ rest.head?, u.opens = true) :
    (t :: args ++ rest).takeWhile (!·.opens) = t :: args ∧
      (t :: args ++ rest).dropWhile (!·.opens) = rest := by
  have hall : ∀ u ∈ t :: args, (!u.opens) = true := by
    intro u hu
    rcases List.mem_cons.mp hu with rfl | hu
    · simp [h.opens]
    · simp [h.args_opens u hu]
  rw [List.takeWhile_append_of_pos hall, List.dropWhile_append_of_pos hall]
  cases rest with
  | nil => simp
  | cons u rest =>
    have hu : u.opens = true := hr u rfl
    simp [hu]

theorem Header.level? {t : Token} {args : List Token} (h : Header t args) (n : Nat) :
    NodeLayers.level? n (t :: args) =
      if (t :: args).countP Token.closes ≤ n then some (n - (t :: args).countP Token.closes)
      else none :=
  level?_of_not_opens fun u hu => by
    rcases List.mem_cons.mp hu with rfl | hu
    · exact h.opens
    · exact h.args_opens u hu

/-- Between a block's braces only an opening brace right at the start is left out of the nesting. -/
theorem level?_block {brace first last : Token} {inner : List Token} (hb : brace.opens = true)
    (hf : first.closes = false) (hl : LeavesAtEnd 1 (inner ++ [last])) (n : Nat) :
    level? n (brace :: first :: inner ++ [last]) = some (n + if first.opens then 1 else 0) := by
  have hc : brace.closes = false := Token.not_closes_of_opens hb
  have hbrace : brace.level? n = some (n + 1) := by simp [Token.level?, hb, hc]
  have hfirst : first.level? (n + 1) = some (n + (if first.opens then 1 else 0) + 1) := by
    cases ho : first.opens <;> simp [Token.level?, hf, ho]
  rw [List.cons_append, List.cons_append, level?_cons, hbrace, Option.bind_some, level?_cons,
    hfirst, Option.bind_some, hl.level?]

theorem Segment.level?_of_spelled {s : Segment} {ts : List Token} (n : Nat) (h : s.Spelled ts) :
    NodeLayers.level? n ts = s.level? n := by
  cases h with
  | @line t args header =>
    obtain ⟨htake, hdrop⟩ := header.takeWhile_eq [] (by simp)
    rw [List.append_nil] at htake hdrop
    simp only [Segment.level?, Segment.strayCloses, Segment.strayOpens, htake, hdrop, Nat.add_zero]
    exact header.level? n
  | @emptyBlock t args brace last header _ hb hl =>
    obtain ⟨htake, hdrop⟩ := header.takeWhile_eq [] (by simp)
    rw [List.append_nil] at htake hdrop
    have hpair : ∀ m, NodeLayers.level? m [brace, last] = some m := by
      intro m
      have hc : brace.closes = false := Token.not_closes_of_opens hb
      simp [level?_cons, level?_nil, Token.level?, hb, hc, hl]
    have hbind : (fun m => NodeLayers.level? m [brace, last]) = some := funext hpair
    rw [level?_append, hbind, Option.bind_fun_some, header.level?]
    simp only [Segment.level?, Segment.strayCloses, Segment.strayOpens, htake, hdrop, Nat.add_zero]
  | @block t args brace first inner last header hline hb hf hl =>
    obtain ⟨htake, hdrop⟩ :=
      header.takeWhile_eq (brace :: first :: inner ++ [last]) (by simpa using hb)
    have hblock := funext (level?_block hb hf hl)
    rw [List.append_assoc, level?_append, hblock, header.level?]
    simp only [Segment.level?, Segment.strayCloses, Segment.strayOpens, htake, hdrop]
    split <;> rfl

theorem Block.level?_of_spelled {b : Block} {ts : List Token} (n : Nat) (h : b.Spelled ts) :
    NodeLayers.level? n ts = b.level? n := by
  obtain ⟨brace, last, parts, rfl, hkeys, hb, hl, hparts⟩ := h
  have hbrace : ∀ m, brace.level? m = some (m + 1) := by
    intro m
    simp [Token.level?, hb, Token.not_closes_of_opens hb]
  have hlast : ∀ m, NodeLayers.level? m [last] = if m = 0 then none else some (m - 1) := by
    intro m
    by_cases hm : m = 0 <;> simp [level?_cons, level?_nil, Token.level?, hl, hm]
  have hsegments := level?_flatten hparts fun s ts m => Segment.level?_of_spelled m
  rw [level?_append, level?_of_not_opens hkeys, Block.level?]
  split
  next =>
    rw [Option.bind_some, level?_cons, hbrace, Option.bind_some, level?_append, hsegments,
      funext hlast]
  next => rfl

theorem Document.level?_of_spelled {d : Document} {ts : List Token} (n : Nat)
    (h : d.Spelled ts) : NodeLayers.level? n ts = d.level? n := by
  obtain ⟨parts, rfl, hparts⟩ := h
  exact level?_flatten hparts (fun b ts m => Block.level?_of_spelled m) n

/-- Each step takes some blocks away and adds others, and it fails only where it takes some away. -/
theorem foldlM_level_eq {α : Type} {step : Nat → α → Option Nat} {closed opened : α → Nat}
    {xs : List α} {n m : Nat} (h : xs.foldlM step n = some m)
    (htotal : ∀ n x m, step n x = some m → m + closed x = n + opened x) :
    m + (xs.map closed).sum = n + (xs.map opened).sum := by
  induction xs generalizing n with
  | nil =>
    obtain rfl : n = m := by simpa using h
    rfl
  | cons x xs ih =>
    rw [List.foldlM_cons] at h
    obtain ⟨k, hk, hm⟩ := Option.bind_eq_some_iff.mp h
    have hx := htotal n x k hk
    have hxs := ih hm
    simp only [List.map_cons, List.sum_cons]
    omega

theorem foldlM_level_of_closed_eq_zero {α : Type} {step : Nat → α → Option Nat}
    {closed opened : α → Nat}
    {xs : List α} (h : (xs.map closed).sum = 0)
    (hstep : ∀ n x, closed x = 0 → step n x = some (n + opened x)) (n : Nat) :
    xs.foldlM step n = some (n + (xs.map opened).sum) := by
  induction xs generalizing n with
  | nil => rfl
  | cons x xs ih =>
    simp only [List.map_cons, List.sum_cons] at h ⊢
    rw [List.foldlM_cons, hstep n x (by omega)]
    simpa [Nat.add_assoc] using ih (by omega) (n + opened x)

theorem Segment.level?_total {s : Segment} {n m : Nat} (h : s.level? n = some m) :
    m + s.strayCloses = n + s.strayOpens := by
  unfold Segment.level? at h
  split at h
  next => cases h; omega
  next => cases h

theorem Segment.level?_of_strayCloses_eq_zero {s : Segment} (n : Nat) (h : s.strayCloses = 0) :
    s.level? n = some (n + s.strayOpens) := by
  simp [Segment.level?, h]

theorem Block.level?_total {b : Block} {n m : Nat} (h : b.level? n = some m) :
    m + b.strayCloses = n + b.strayOpens := by
  unfold Block.level? at h
  split at h
  next hk =>
    obtain ⟨k, hfold, hlast⟩ := Option.bind_eq_some_iff.mp h
    have htotal := foldlM_level_eq hfold fun n s m => Segment.level?_total
    split at hlast
    next => cases hlast
    next =>
      cases hlast
      rw [Block.strayCloses, Block.strayOpens]
      omega
  next => cases h

theorem Block.level?_of_strayCloses_eq_zero {b : Block} (n : Nat) (h : b.strayCloses = 0) :
    b.level? n = some (n + b.strayOpens) := by
  obtain ⟨hkeys, hsegments⟩ := Nat.add_eq_zero_iff.mp h
  have hfold : b.segments.foldlM (fun m s => Segment.level? s m) (n + 1) =
      some (n + 1 + (b.segments.map Segment.strayOpens).sum) :=
    foldlM_level_of_closed_eq_zero hsegments
      (fun m s => Segment.level?_of_strayCloses_eq_zero m) (n + 1)
  rw [Block.level?, if_pos (by omega), hkeys, Nat.sub_zero, hfold, Option.bind_some,
    if_neg (by omega), Block.strayOpens]
  congr 1
  omega

theorem Document.level?_total {d : Document} {n m : Nat} (h : d.level? n = some m) :
    m + d.strayCloses = n + d.strayOpens :=
  foldlM_level_eq h fun _ _ _ => Block.level?_total

theorem Document.level?_of_strayCloses_eq_zero {d : Document} (n : Nat) (h : d.strayCloses = 0) :
    d.level? n = some (n + d.strayOpens) :=
  foldlM_level_of_closed_eq_zero h (fun m _ => Block.level?_of_strayCloses_eq_zero m) n

/-- The braces of an accepted document are balanced just when those that the nesting leaves out even
out. Where they are all of one kind, that is when there are none. -/
theorem Document.balanced_iff {ts : List Token} {d : Document} (h : Document.ofTokens ts = .ok d) :
    (Balanced ts ↔ d.level? 0 = some 0) ∧
      (d.strayCloses = 0 ∨ d.strayOpens = 0 →
        (Balanced ts ↔ d.strayCloses = 0 ∧ d.strayOpens = 0)) := by
  have hlevel : Balanced ts ↔ d.level? 0 = some 0 := by
    rw [balanced_iff_level?, Document.level?_of_spelled 0 (Document.spelled_ofTokens h)]
  refine ⟨hlevel, fun hkind => ?_⟩
  rw [hlevel]
  constructor
  · intro hzero
    have htotal := Document.level?_total hzero
    omega
  · rintro ⟨hcloses, hopens⟩
    rw [Document.level?_of_strayCloses_eq_zero 0 hcloses, hopens]

/-- A site whose only directive has a block that begins with a second brace. -/
def secondBrace : List Token :=
  [⟨none, 1, "a", false⟩, ⟨none, 1, "\x7b", false⟩,
    ⟨none, 2, "b", false⟩, ⟨none, 2, "\x7b", false⟩,
    ⟨none, 3, "\x7b", false⟩, ⟨none, 4, "\x7d", false⟩,
    ⟨none, 5, "\x7d", false⟩]

theorem Document.not_balanced_secondBrace :
    (∃ d, Document.ofTokens secondBrace = .ok d) ∧ ¬Balanced secondBrace := by
  have h : Document.ofTokens secondBrace = .ok
      [⟨[⟨none, 1, "a", false⟩], [[⟨none, 2, "b", false⟩, ⟨none, 2, "\x7b", false⟩,
        ⟨none, 3, "\x7b", false⟩, ⟨none, 4, "\x7d", false⟩]]⟩] := by decide +kernel
  have hkind := (Document.balanced_iff h).2 (Or.inl (by decide))
  refine ⟨⟨_, h⟩, fun hb => ?_⟩
  have hzero := (hkind.mp hb).2
  revert hzero
  decide

end NodeLayers
