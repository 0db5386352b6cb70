import NodeLayers.OptionValue
import Mathlib.Data.List.Basic

namespace NodeLayers

theorem le_ofDigitChars (cs : List Char) (n : Nat) : n ≤ Nat.ofDigitChars 10 cs n := by
  rw [Nat.ofDigitChars_eq_ofDigitChars_zero]
  have hpos : 1 ≤ 10 ^ cs.length := Nat.one_le_pow _ _ (by decide)
  have hle : 1 * n ≤ 10 ^ cs.length * n := Nat.mul_le_mul_right n hpos
  omega

/-- The digits read are those of the number, and it fits in sixteen bits at every digit because it
does so at the last. -/
theorem portFrom_eq_ok_iff {n m : Nat} {cs : List Char} (hn : n < 65536) :
    portFrom n cs = .ok m ↔
      (∀ c ∈ cs, c.isDigit = true) ∧ Nat.ofDigitChars 10 cs n = m ∧ m < 65536 := by
  induction cs generalizing n with
  | nil =>
    rw [portFrom, Nat.ofDigitChars_nil]
    constructor
    · intro h
      cases h
      exact ⟨by simp, rfl, hn⟩
    · rintro ⟨_, rfl, _⟩
      rfl
  | cons c cs ih =>
    rw [portFrom, Nat.ofDigitChars_cons]
    by_cases hc : c.isDigit = true
    · rw [if_pos hc]
      simp only [List.mem_cons, forall_eq_or_imp, hc, true_and]
      split
      next hm => exact ih hm
      next hm =>
        have hle := le_ofDigitChars cs (10 * n + (c.toNat - '0'.toNat))
        constructor
        · intro h; cases h
        · rintro ⟨_, rfl, hlt⟩
          omega
    · rw [if_neg hc]
      constructor
      · intro h; cases h
      · intro h
        exact absurd (h.1 c List.mem_cons_self) hc

theorem readPort_repr (p : UInt16) : readPort (toString p.toNat) = .ok p := by
  have hlist : (toString p.toNat).toList = Nat.toDigits 10 p.toNat := by simp
  have hdigits : ∀ c ∈ Nat.toDigits 10 p.toNat, c.isDigit = true :=
    fun c hc => Nat.isDigit_of_mem_toDigits (by decide) (by decide) hc
  have hread : portFrom 0 (Nat.toDigits 10 p.toNat) = .ok p.toNat :=
    (portFrom_eq_ok_iff (by decide)).mpr
      ⟨hdigits, Nat.ofDigitChars_ten_toDigits, p.toNat_lt⟩
  rw [readPort, hlist]
  cases hcs : Nat.toDigits 10 p.toNat with
  | nil => exact absurd hcs Nat.toDigits_ne_nil
  | cons c cs =>
    have hc : c.isDigit = true := hdigits c (by rw [hcs]; exact List.mem_cons_self)
    have hsign : ¬(c = '+' ∨ c = '-') := by
      rintro (rfl | rfl)
      · revert hc; decide
      · revert hc; decide
    rw [hcs] at hread
    simp only [if_neg hsign, hread]
    simp [Except.map, Except.mapError]

/-- What is wrong with a character behind these digits: it is no digit, or the number up to it does
not fit in sixteen bits. The character itself is looked at first. -/
def portFault? (digits : List Char) (c : Char) : Option PortFault :=
  if c.isDigit = false then some .notDigit
  else if 65535 < Nat.ofDigitChars 10 (digits ++ [c]) 0 then some .tooLarge
  else none

/-- At the first position where anything is wrong, this is. -/
def FirstFault (faultAt? : List Char → Char → Option PortFault) (cs : List Char)
    (f : PortFault) : Prop :=
  ∃ before c, before ++ [c] <+: cs ∧ faultAt? before c = some f ∧
    ∀ b d, b ++ [d] <+: before → faultAt? b d = none

section firstFault

variable {faultAt? : List Char → Char → Option PortFault} {f : PortFault} {c : Char}
  {cs : List Char}

theorem not_firstFault_nil : ¬FirstFault faultAt? [] f := by
  rintro ⟨before, c, hstands, _⟩
  simp at hstands

theorem firstFault_cons_iff :
    FirstFault faultAt? (c :: cs) f ↔ faultAt? [] c = some f ∨
      (faultAt? [] c = none ∧ FirstFault (fun before => faultAt? (c :: before)) cs f) := by
  constructor
  · rintro ⟨before, d, hstands, hfault, hfirst⟩
    cases before with
    | nil =>
      obtain ⟨rfl, _⟩ := List.cons_prefix_cons.mp hstands
      exact Or.inl hfault
    | cons a before =>
      obtain ⟨rfl, hrest⟩ := List.cons_prefix_cons.mp hstands
      refine Or.inr ⟨hfirst [] a (by simp), before, d, hrest, hfault, fun b e hb => ?_⟩
      exact hfirst (a :: b) e (List.cons_prefix_cons.mpr ⟨rfl, hb⟩)
  · rintro (hfault | ⟨hnone, before, d, hstands, hfault, hfirst⟩)
    · exact ⟨[], c, by simp, hfault, by simp⟩
    · refine ⟨c :: before, d, List.cons_prefix_cons.mpr ⟨rfl, hstands⟩, hfault, fun b e hb => ?_⟩
      cases b with
      | nil =>
        obtain ⟨rfl, _⟩ := List.cons_prefix_cons.mp hb
        exact hnone
      | cons a b =>
        obtain ⟨rfl, hrest⟩ := List.cons_prefix_cons.mp hb
        exact hfirst b e hrest

end firstFault

theorem portFrom_cons (digits : List Char) (c : Char) (cs : List Char) :
    portFrom (Nat.ofDigitChars 10 digits 0) (c :: cs) =
      match portFault? digits c with
      | some f => .error f
      | none => portFrom (Nat.ofDigitChars 10 (digits ++ [c]) 0) cs := by
  have hvalue : Nat.ofDigitChars 10 (digits ++ [c]) 0 =
      10 * Nat.ofDigitChars 10 digits 0 + (c.toNat - '0'.toNat) := by
    rw [Nat.ofDigitChars_append, Nat.ofDigitChars_cons, Nat.ofDigitChars_nil]
  rw [portFrom, portFault?, ← hvalue]
  cases hc : c.isDigit with
  | false => rfl
  | true =>
    by_cases hlarge : 65535 < Nat.ofDigitChars 10 (digits ++ [c]) 0
    · have hfits : ¬Nat.ofDigitChars 10 (digits ++ [c]) 0 < 65536 := by omega
      simp [hlarge, hfits]
    · have hfits : Nat.ofDigitChars 10 (digits ++ [c]) 0 < 65536 := by omega
      simp [hlarge, hfits]

theorem portFrom_eq_error_iff {digits cs : List Char} {f : PortFault} :
    portFrom (Nat.ofDigitChars 10 digits 0) cs = .error f ↔
      FirstFault (fun before => portFault? (digits ++ before)) cs f := by
  induction cs generalizing digits with
  | nil => exact iff_of_false nofun not_firstFault_nil
  | cons c cs ih =>
    rw [portFrom_cons, firstFault_cons_iff]
    simp only [List.append_nil]
    cases hfault : portFault? digits c with
    | some g => simp
    | none => simpa using @ih (digits ++ [c])

/-- A port that begins with a sign is refused for it. -/
def Signed (s : String) : Prop :=
  ∃ c ∈ s.toList.head?, c = '+' ∨ c = '-'

theorem readPort_of_signed {s : String} (h : Signed s) : readPort s = .error .signed := by
  obtain ⟨c, hc, hsign⟩ := h
  obtain ⟨cs, hcs⟩ := List.head?_eq_some_iff.mp hc
  rw [readPort, hcs]
  exact if_pos hsign

theorem not_signed_empty : ¬Signed "" := by
  rintro ⟨_, hc, _⟩
  cases hc

theorem readPort_empty : readPort "" = .error (.port .empty) := rfl

theorem readPort_of_not_signed {s : String} (h : ¬Signed s) (hs : s ≠ "") :
    readPort s = ((portFrom 0 s.toList).map Nat.toUInt16).mapError .port := by
  obtain ⟨c, cs, hcs⟩ := List.exists_cons_of_ne_nil (mt String.toList_eq_nil_iff.mp hs)
  have hsign : ¬(c = '+' ∨ c = '-') := fun hc => h ⟨c, by rw [hcs]; rfl, hc⟩
  rw [readPort, hcs]
  exact if_neg hsign

theorem not_signed_of_digits {s : String} (h : ∀ c ∈ s.toList, c.isDigit = true) : ¬Signed s := by
  rintro ⟨c, hc, hsign⟩
  have hdigit := h c (List.mem_of_mem_head? hc)
  rcases hsign with rfl | rfl
  · revert hdigit; decide
  · revert hdigit; decide

section narrowed

variable {r : Except PortFault Nat}

theorem narrowed_eq_ok_iff {n : Nat} (h : ∀ m, r = .ok m → m < 65536) :
    (∃ p, (r.map Nat.toUInt16).mapError ValueFault.port = .ok p ∧ p.toNat = n) ↔ r = .ok n := by
  cases r with
  | error f => simp [Except.map, Except.mapError]
  | ok m => simp [Except.map, Except.mapError, Nat.mod_eq_of_lt (h m rfl)]

theorem narrowed_eq_error_iff {e : ValueFault} :
    (r.map Nat.toUInt16).mapError ValueFault.port = .error e ↔ ∃ f, r = .error f ∧ .port f = e := by
  cases r <;> simp [Except.map, Except.mapError]

end narrowed

/-- Why a text writes no port: a sign in front, nothing at all, or the first character that is no
digit or makes the number too large. -/
inductive PortRefused (s : String) : ValueFault → Prop
  | signed : Signed s → PortRefused s .signed
  | empty : s = "" → PortRefused s (.port .empty)
  | fault {f : PortFault} : ¬Signed s → FirstFault portFault? s.toList f → PortRefused s (.port f)

theorem readPort_eq_ok_iff {s : String} {p : UInt16} :
    readPort s = .ok p ↔
      s ≠ "" ∧ (∀ c ∈ s.toList, c.isDigit = true) ∧ Nat.ofDigitChars 10 s.toList 0 = p.toNat := by
  by_cases hsigned : Signed s
  · rw [readPort_of_signed hsigned]
    exact iff_of_false nofun fun h => not_signed_of_digits h.2.1 hsigned
  by_cases hempty : s = ""
  · subst hempty
    exact iff_of_false nofun fun h => h.1 rfl
  have hbound : ∀ m, portFrom 0 s.toList = .ok m → m < 65536 := fun m hm =>
    ((portFrom_eq_ok_iff (by decide)).mp hm).2.2
  have hvalue : readPort s = .ok p ↔ ∃ q, readPort s = .ok q ∧ q.toNat = p.toNat := by
    constructor
    · exact fun h => ⟨p, h, rfl⟩
    · rintro ⟨q, hq, hnat⟩
      rw [hq, UInt16.toNat_inj.mp hnat]
  rw [hvalue, readPort_of_not_signed hsigned hempty, narrowed_eq_ok_iff hbound,
    portFrom_eq_ok_iff (by decide)]
  have hlt : p.toNat < 65536 := p.toNat_lt
  simp [hempty, hlt]

theorem readPort_eq_error_iff {s : String} {e : ValueFault} :
    readPort s = .error e ↔ PortRefused s e := by
  by_cases hsigned : Signed s
  · rw [readPort_of_signed hsigned]
    constructor
    · intro h
      cases h
      exact .signed hsigned
    · intro h
      cases h with
      | signed => rfl
      | empty hs => exact absurd (hs ▸ hsigned) not_signed_empty
      | fault hnot => exact absurd hsigned hnot
  by_cases hempty : s = ""
  · subst hempty
    rw [readPort_empty]
    constructor
    · intro h
      cases h
      exact .empty rfl
    · intro h
      cases h with
      | signed hs => exact absurd hs hsigned
      | empty => rfl
      | fault _ hfirst => exact absurd hfirst not_firstFault_nil
  rw [readPort_of_not_signed hsigned hempty, narrowed_eq_error_iff]
  constructor
  · rintro ⟨f, hf, rfl⟩
    exact .fault hsigned ((@portFrom_eq_error_iff [] s.toList f).mp hf)
  · intro h
    cases h with
    | signed hs => exact absurd hs hsigned
    | empty hs => exact absurd hs hempty
    | @fault f _ hfirst => exact ⟨f, (@portFrom_eq_error_iff [] s.toList f).mpr hfirst, rfl⟩

/-- A port is the number that its digits write, leading zeros included, just when they are digits
and it fits in sixteen bits. A sign in front is refused as such, and so is the empty text; anything
else is refused for the first character that is no digit or makes the number too large. -/
theorem readPort_outcome (s : String) :
    (∀ n, (∃ p, readPort s = .ok p ∧ p.toNat = n) ↔
        s ≠ "" ∧ (∀ c ∈ s.toList, c.isDigit = true) ∧ Nat.ofDigitChars 10 s.toList 0 = n ∧
          n ≤ 65535) ∧
      (readPort s = .error .signed ↔ Signed s) ∧
      (∀ f, readPort s = .error (.port f) ↔
        ¬Signed s ∧ ((s = "" ∧ f = .empty) ∨ (s ≠ "" ∧ FirstFault portFault? s.toList f))) ∧
      readPort s ≠ .error .notBoolean := by
  refine ⟨fun n => ⟨?_, ?_⟩, ?_, fun f => ?_, ?_⟩
  · rintro ⟨p, hp, rfl⟩
    obtain ⟨hs, hdigits, hvalue⟩ := readPort_eq_ok_iff.mp hp
    exact ⟨hs, hdigits, hvalue, Nat.le_of_lt_succ p.toNat_lt⟩
  · rintro ⟨hs, hdigits, hvalue, hn⟩
    have hnat : n.toUInt16.toNat = n := Nat.mod_eq_of_lt (Nat.lt_succ_of_le hn)
    exact ⟨n.toUInt16, readPort_eq_ok_iff.mpr ⟨hs, hdigits, hvalue.trans hnat.symm⟩, hnat⟩
  · rw [readPort_eq_error_iff]
    constructor
    · intro h
      cases h
      assumption
    · exact .signed
  · rw [readPort_eq_error_iff]
    constructor
    · intro h
      cases h with
      | empty hs => exact ⟨hs ▸ not_signed_empty, Or.inl ⟨hs, rfl⟩⟩
      | fault hsigned hfirst =>
        refine ⟨hsigned, Or.inr ⟨?_, hfirst⟩⟩
        rintro rfl
        exact not_firstFault_nil hfirst
    · rintro ⟨hsigned, ⟨hs, rfl⟩ | ⟨_, hfirst⟩⟩
      · exact .empty hs
      · exact .fault hsigned hfirst
  · rw [ne_eq, readPort_eq_error_iff]
    exact nofun

/-- A character that is no digit comes before the number that it would make too large, and a number
that is too large before the characters behind it. -/
example : readPort "0065535" = .ok 65535 ∧ readPort "6553x" = .error (.port .notDigit) ∧
    readPort "65536x" = .error (.port .tooLarge) := by
  decide +kernel

end NodeLayers
