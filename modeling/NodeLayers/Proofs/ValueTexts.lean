import NodeLayers.Proofs.PortNumber

namespace NodeLayers

/-- The texts that write a flag. -/
def flagTexts : Bool → List String
  | true => ["1", "t", "T", "TRUE", "true", "True"]
  | false => ["0", "f", "F", "FALSE", "false", "False"]

/-- The flag that a text writes. -/
def flag? (s : String) : Option Bool :=
  [true, false].find? fun b => s ∈ flagTexts b

/-- The port that a text writes. -/
def port? (s : String) : Option UInt16 :=
  if s ≠ "" ∧ s.toList.all Char.isDigit = true ∧ Nat.ofDigitChars 10 s.toList 0 ≤ 65535 then
    some (Nat.ofDigitChars 10 s.toList 0).toUInt16
  else none

theorem not_mem_flagTexts_true {s : String} (h : s ∈ flagTexts false) : s ∉ flagTexts true := by
  revert s
  decide

section flag

variable {s : String} {b : Bool} {e : ValueFault}

theorem flag?_eq_some_iff : flag? s = some b ↔ s ∈ flagTexts b := by
  constructor
  · intro h
    simpa using List.find?_some h
  · intro h
    cases b with
    | true => exact List.find?_cons_of_pos (by simpa using h)
    | false =>
      have htrue := not_mem_flagTexts_true h
      rw [flag?, List.find?_cons_of_neg (by simpa using htrue)]
      exact List.find?_cons_of_pos (by simpa using h)

theorem flag?_eq_none_iff : flag? s = none ↔ ∀ b, s ∉ flagTexts b := by
  rw [Option.eq_none_iff_forall_ne_some]
  exact forall_congr' fun b => not_congr flag?_eq_some_iff

/-- A flag is read from the texts that write it, and from no other. -/
theorem readBool_eq (s : String) : readBool s = (flag? s).elim (.error .notBoolean) .ok := by
  have hread : readBool s =
      if s ∈ flagTexts true then .ok true
      else if s ∈ flagTexts false then .ok false else .error .notBoolean := rfl
  rw [hread]
  by_cases htrue : s ∈ flagTexts true
  · rw [if_pos htrue, flag?_eq_some_iff.mpr htrue]
    rfl
  · rw [if_neg htrue]
    by_cases hfalse : s ∈ flagTexts false
    · rw [if_pos hfalse, flag?_eq_some_iff.mpr hfalse]
      rfl
    · have hnone : flag? s = none := flag?_eq_none_iff.mpr (Bool.forall_bool.mpr ⟨hfalse, htrue⟩)
      rw [if_neg hfalse, hnone]
      rfl

theorem readBool_eq_ok_iff : readBool s = .ok b ↔ s ∈ flagTexts b := by
  rw [readBool_eq, ← flag?_eq_some_iff]
  cases flag? s <;> simp

theorem readBool_eq_error_iff :
    readBool s = .error e ↔ (∀ b, s ∉ flagTexts b) ∧ e = .notBoolean := by
  rw [readBool_eq, ← flag?_eq_none_iff]
  cases flag? s <;> simp [eq_comm]

/-- Small and capital letters are not mixed in any other way. -/
example : readBool "True" = .ok true ∧ readBool "tRUE" = .error .notBoolean := by
  decide

theorem toOption_readBool (s : String) : (readBool s).toOption = flag? s := by
  ext b
  rw [flag?_eq_some_iff, ← readBool_eq_ok_iff]
  cases readBool s <;> simp [Except.toOption]

end flag

theorem toOption_readPort (s : String) : (readPort s).toOption = port? s := by
  cases hread : readPort s with
  | ok p =>
    obtain ⟨hs, hdigits, hvalue⟩ := readPort_eq_ok_iff.mp hread
    have hport : port? s = some p.toNat.toUInt16 := by
      rw [port?, hvalue]
      exact if_pos ⟨hs, List.all_eq_true.mpr hdigits, Nat.le_of_lt_succ p.toNat_lt⟩
    rw [hport]
    simp [Except.toOption]
  | error e =>
    refine (if_neg ?_).symm
    rintro ⟨hs, hdigits, hle⟩
    have hnat : (Nat.ofDigitChars 10 s.toList 0).toUInt16.toNat = Nat.ofDigitChars 10 s.toList 0 :=
      Nat.mod_eq_of_lt (Nat.lt_succ_of_le hle)
    rw [readPort_eq_ok_iff.mpr ⟨hs, List.all_eq_true.mp hdigits, hnat.symm⟩] at hread
    cases hread

end NodeLayers
