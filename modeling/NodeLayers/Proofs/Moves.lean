import NodeLayers.Segment
import Mathlib.Data.List.Chain

namespace NodeLayers

/-- The nesting behind a token in front of which it was `n`. -/
def Token.depthAfter (t : Token) (n : Nat) : Nat :=
  if t.closes then n - 1 else if t.opens then n + 1 else n

theorem Token.not_opens_of_closes {t : Token} (h : t.closes = true) : t.opens = false := by
  cases ho : t.opens with
  | false => rfl
  | true => rw [Token.not_closes_of_opens ho] at h; cases h

theorem Token.depthAfter_of_closes {t : Token} (h : t.closes = true) (n : Nat) :
    t.depthAfter n = n - 1 := by
  simp [Token.depthAfter, h]

theorem Token.depthAfter_of_opens {t : Token} (h : t.opens = true) (n : Nat) :
    t.depthAfter n = n + 1 := by
  simp [Token.depthAfter, h, Token.not_closes_of_opens h]

theorem Token.depthAfter_of_plain {t : Token} (hc : t.closes = false) (ho : t.opens = false)
    (n : Nat) : t.depthAfter n = n := by
  simp [Token.depthAfter, hc, ho]

theorem Token.depthAfter_mono (t : Token) {m n : Nat} (h : m ≤ n) :
    t.depthAfter m ≤ t.depthAfter n := by
  unfold Token.depthAfter
  split
  next => omega
  next => split <;> omega

theorem Token.depthAfter_le_of_not_opens {t : Token} (h : t.opens = false) (n : Nat) :
    t.depthAfter n ≤ n := by
  unfold Token.depthAfter
  split
  next => omega
  next => rw [h]; exact Nat.le_refl n

theorem Token.depthAfter_add (t : Token) (depth : Nat) {n : Nat} (h : 0 < n) :
    t.depthAfter (depth + n) = depth + t.depthAfter n := by
  unfold Token.depthAfter
  split
  next => omega
  next => split <;> omega

/-- Each token stands on the line on which the one before it ends. -/
def OneLine (ts : List Token) : Prop :=
  ts.IsChain fun a b => a.sharesLine b = true

theorem oneLine_pair {t u : Token} : OneLine [t, u] ↔ t.sharesLine u = true := by
  simp [OneLine]

theorem oneLine_cons_cons {t u : Token} {ts : List Token} :
    OneLine (t :: u :: ts) ↔ t.sharesLine u = true ∧ OneLine (u :: ts) :=
  List.isChain_cons_cons

namespace Cursor

variable {t u v : Token} {passed ahead : List Token} {n depth : Nat}

theorem next?_cons : next? ⟨passed, t :: ahead, n⟩ = some ⟨t :: passed, ahead, n⟩ := rfl

theorem next?_nil : next? ⟨passed, [], n⟩ = none := rfl

theorem next?_eq_some {c d : Cursor} (h : c.next? = some d) :
    ∃ u rest, c.ahead = u :: rest ∧ d = ⟨u :: c.passed, rest, c.nesting⟩ := by
  unfold next? at h
  split at h
  next => cases h
  next u rest hu => cases h; exact ⟨u, rest, hu, rfl⟩

theorem next?_eq_none {c : Cursor} (h : c.next? = none) : c.ahead = [] := by
  unfold next? at h
  split at h
  next hn => exact hn
  next => cases h

theorem nextOnLine?_cons :
    nextOnLine? ⟨t :: passed, u :: ahead, n⟩ =
      if t.sharesLine u then some ⟨u :: t :: passed, ahead, n⟩ else none := rfl

theorem nextArg?_of_sharesLine (hs : t.sharesLine u = true) (ho : u.opens = false) :
    nextArg? ⟨t :: passed, u :: ahead, n⟩ = some ⟨u :: t :: passed, ahead, n⟩ := by
  simp [nextArg?, nextOnLine?_cons, hs, atOpen, current?, ho]

theorem nextArg?_of_opens (ho : u.opens = true) :
    nextArg? ⟨t :: passed, u :: ahead, n⟩ = none := by
  rw [nextArg?, nextOnLine?_cons]
  split
  next => simp [atOpen, current?, ho]
  next => rfl

theorem nextArg?_of_apart (hs : t.sharesLine u = false) :
    nextArg? ⟨t :: passed, u :: ahead, n⟩ = none := by
  simp [nextArg?, nextOnLine?_cons, hs]

theorem nextArg?_of_nil {c : Cursor} (h : c.ahead = []) : c.nextArg? = none := by
  have hn : c.next? = none := by simp [next?, h]
  rw [nextArg?, nextOnLine?, hn]
  split <;> rfl

theorem nextArg?_eq_some {c d : Cursor} (h : c.nextArg? = some d) :
    ∃ u rest, c.ahead = u :: rest ∧ d = ⟨u :: c.passed, rest, c.nesting⟩ ∧ u.opens = false ∧
      ∀ t ∈ c.current?, t.sharesLine u = true := by
  obtain ⟨u, rest, hu, rfl⟩ := next?_eq_some (next?_of_nextArg? h)
  obtain ⟨hline, ho⟩ := Option.filter_eq_some_iff.mp h
  refine ⟨u, rest, hu, rfl, by simpa [atOpen, current?] using ho, fun t ht => ?_⟩
  unfold nextOnLine? at hline
  split at hline
  next hs =>
    unfold nextSharesLine at hs
    rwa [Option.mem_def.mp ht, hu] at hs
  next => cases hline

theorem opensBlock_cons :
    opensBlock ⟨t :: passed, u :: ahead, n⟩ = (u.opens && t.sharesLine u) := rfl

theorem countBrace_cons :
    countBrace ⟨t :: passed, ahead, n⟩ = ⟨t :: passed, ahead, t.depthAfter n⟩ := by
  simp only [countBrace, atClose, atOpen, current?, List.head?_cons, Option.any_some,
    Token.depthAfter]
  by_cases hc : t.closes = true
  · simp [hc]
  · by_cases ho : t.opens = true <;> simp [hc, ho]

theorem nextInBlock_inside (h : depth < n) :
    nextInBlock ⟨passed, t :: ahead, n⟩ depth =
      (decide (depth < t.depthAfter n), ⟨t :: passed, ahead, t.depthAfter n⟩) := by
  rw [nextInBlock, if_pos h, next?_cons]
  simp only [countBrace_cons]

theorem nextInBlock_plain (hc : t.closes = false) (ho : t.opens = false) :
    nextInBlock ⟨passed, t :: ahead, 1⟩ 0 = (true, ⟨t :: passed, ahead, 1⟩) := by
  rw [nextInBlock_inside Nat.one_pos, Token.depthAfter_of_plain hc ho]
  rfl

theorem nextInBlock_close (hc : t.closes = true) :
    nextInBlock ⟨passed, t :: ahead, 1⟩ 0 = (false, ⟨t :: passed, ahead, 0⟩) := by
  rw [nextInBlock_inside Nat.one_pos, Token.depthAfter_of_closes hc]
  rfl

theorem nextInBlock_end (h : depth < n) :
    nextInBlock ⟨passed, [], n⟩ depth = (false, ⟨passed, [], n⟩) := by
  rw [nextInBlock, if_pos h, next?_nil]

/-- The first stop in a block is the token behind its brace, whatever that token is. -/
theorem nextInBlock_enter (h : n ≤ depth) (hs : t.sharesLine u = true) (ho : u.opens = true)
    (hv : v.closes = false) :
    nextInBlock ⟨t :: passed, u :: v :: ahead, n⟩ depth =
      (true, ⟨v :: u :: t :: passed, ahead, n + 1⟩) := by
  rw [nextInBlock, if_neg (Nat.not_lt.mpr h), nextOnLine?_cons, if_pos hs]
  simp [atOpen, atClose, current?, ho, hv, next?_cons]

theorem nextInBlock_empty (h : n ≤ depth) (hs : t.sharesLine u = true) (ho : u.opens = true)
    (hv : v.closes = true) :
    nextInBlock ⟨t :: passed, u :: v :: ahead, n⟩ depth =
      (false, ⟨v :: u :: t :: passed, ahead, n⟩) := by
  rw [nextInBlock, if_neg (Nat.not_lt.mpr h), nextOnLine?_cons, if_pos hs]
  simp [atOpen, atClose, current?, ho, hv, next?_cons]

theorem nextInBlock_cut (h : n ≤ depth) (hs : t.sharesLine u = true) (ho : u.opens = true) :
    nextInBlock ⟨t :: passed, [u], n⟩ depth = (false, ⟨u :: t :: passed, [], n⟩) := by
  rw [nextInBlock, if_neg (Nat.not_lt.mpr h), nextOnLine?_cons, if_pos hs]
  simp [atOpen, current?, ho, next?_nil]

theorem nextInBlock_none (h : n ≤ depth)
    (hu : ∀ u ∈ ahead.head?, (u.opens && t.sharesLine u) = false) :
    nextInBlock ⟨t :: passed, ahead, n⟩ depth = (false, ⟨t :: passed, ahead, n⟩) := by
  rw [nextInBlock, if_neg (Nat.not_lt.mpr h)]
  cases ahead with
  | nil => simp [nextOnLine?, next?_nil]
  | cons u rest =>
    have hb := hu u rfl
    rw [nextOnLine?_cons]
    by_cases hs : t.sharesLine u = true
    · have ho : u.opens = false := by simpa [hs] using hb
      simp [hs, atOpen, current?, ho]
    · simp [hs]

theorem nextArg?_args (c : Cursor) : c.args.2.nextArg? = none := by
  fun_induction args c with
  | case1 c h => exact h
  | case2 c d h hlt rest ih => exact ih

theorem append_args (c : Cursor) : c.args.1 ++ c.args.2.ahead = c.ahead := by
  fun_induction args c with
  | case1 => rfl
  | case2 c d h hlt rest ih =>
    obtain ⟨u, ahead, hu, rfl, _, _⟩ := nextArg?_eq_some h
    simp only [current?, List.head?_cons, Option.toList_some, hu, List.cons_append,
      List.nil_append]
    exact congrArg (u :: ·) ih

theorem passed_args (c : Cursor) : c.args.2.passed = c.args.1.reverse ++ c.passed := by
  fun_induction args c with
  | case1 => rfl
  | case2 c d h hlt rest ih =>
    obtain ⟨u, ahead, hu, rfl, _, _⟩ := nextArg?_eq_some h
    simpa [current?, rest] using ih

@[simp] theorem nesting_args (c : Cursor) : c.args.2.nesting = c.nesting := by
  fun_induction args c with
  | case1 => rfl
  | case2 c d h hlt rest ih =>
    obtain ⟨u, ahead, hu, rfl, _, _⟩ := nextArg?_eq_some h
    exact ih

theorem opens_of_mem_args {c : Cursor} {a : Token} (h : a ∈ c.args.1) : a.opens = false := by
  fun_induction args c with
  | case1 => cases h
  | case2 c d hd hlt rest ih =>
    obtain ⟨u, ahead, hu, rfl, ho, _⟩ := nextArg?_eq_some hd
    rcases List.mem_append.mp h with hm | hm
    · obtain rfl : a = u := by simpa [current?] using hm
      exact ho
    · exact ih hm

theorem oneLine_args (c : Cursor) : ∀ t ∈ c.current?, OneLine (t :: c.args.1) := by
  fun_induction args c with
  | case1 => exact fun t _ => List.IsChain.singleton t
  | case2 c d hd hlt rest ih =>
    intro t ht
    obtain ⟨u, ahead, hu, rfl, _, hs⟩ := nextArg?_eq_some hd
    exact oneLine_cons_cons.mpr ⟨hs t ht, ih u rfl⟩

theorem oneLine_args_append (c : Cursor) (hb : c.args.2.opensBlock = true)
    (ha : c.args.2.ahead = u :: ahead) : ∀ t ∈ c.current?, OneLine (t :: (c.args.1 ++ [u])) := by
  fun_induction args c with
  | case1 c _ =>
    intro t ht
    have hahead : c.ahead = u :: ahead := ha
    have hboth : (u.opens && t.sharesLine u) = true := by
      simpa only [opensBlock, Option.mem_def.mp ht, hahead] using hb
    exact oneLine_pair.mpr (Bool.and_eq_true _ _ ▸ hboth).2
  | case2 c d hd hlt rest ih =>
    intro t ht
    obtain ⟨v, _, _, rfl, _, hs⟩ := nextArg?_eq_some hd
    exact oneLine_cons_cons.mpr ⟨hs t ht, ih hb ha v rfl⟩

/-- The arguments of a line run to its end or to an opening brace. -/
theorem args_of_line {as rest : List Token}
    (hl : OneLine (t :: as))
    (ha : ∀ a ∈ as, a.opens = false)
    (hr : nextArg? ⟨as.reverse ++ t :: passed, rest, n⟩ = none) :
    args ⟨t :: passed, as ++ rest, n⟩ = (as, ⟨as.reverse ++ t :: passed, rest, n⟩) := by
  induction as generalizing t passed with
  | nil => exact args_of_none hr
  | cons a as ih =>
    have hs := oneLine_cons_cons.mp hl
    have hnext : nextArg? ⟨t :: passed, a :: (as ++ rest), n⟩ =
        some ⟨a :: t :: passed, as ++ rest, n⟩ :=
      nextArg?_of_sharesLine hs.1 (ha a List.mem_cons_self)
    have hrest : args ⟨a :: t :: passed, as ++ rest, n⟩ =
        (as, ⟨as.reverse ++ a :: t :: passed, rest, n⟩) :=
      ih hs.2 (fun b hb => ha b (List.mem_cons_of_mem _ hb)) (by simpa using hr)
    rw [List.cons_append, args_of_some hnext, hrest]
    simp [current?]

end Cursor

end NodeLayers
