import NodeLayers.JsonReader
import NodeLayers.Proofs.PortNumber

namespace NodeLayers

def JsonBlanks (cs : List Char) : Prop :=
  ∀ c ∈ cs, isJsonBlank c = true

theorem skipBlanks_append {lead : List Char} (h : JsonBlanks lead) (cs : List Char) :
    skipBlanks (lead ++ cs) = skipBlanks cs :=
  List.dropWhile_append_of_pos h

theorem skipBlanks_cons {c : Char} (h : isJsonBlank c = false) (cs : List Char) :
    skipBlanks (c :: cs) = c :: cs :=
  List.dropWhile_cons_of_neg (by simp [h])

/-- What follows does not go on with a number in front of it. -/
def Delimited (rest : List Char) : Prop :=
  ∀ c ∈ rest.head?, c.isDigit = false ∧ c ≠ '.' ∧ c ≠ 'e' ∧ c ≠ 'E'

theorem delimited_nil : Delimited [] := by
  intro c hc
  cases hc

theorem delimited_cons {c : Char} (h : c.isDigit = false ∧ c ≠ '.' ∧ c ≠ 'e' ∧ c ≠ 'E')
    (cs : List Char) : Delimited (c :: cs) := by
  intro d hd
  obtain rfl := Option.some.inj hd
  exact h

theorem delimited_of_blank {c : Char} (h : isJsonBlank c = true) :
    c.isDigit = false ∧ c ≠ '.' ∧ c ≠ 'e' ∧ c ≠ 'E' := by
  simp only [isJsonBlank, decide_eq_true_eq] at h
  rcases h with rfl | rfl | rfl | rfl <;> decide

theorem delimited_append {trail : List Char} (h : JsonBlanks trail) {c : Char} {rest : List Char}
    (hc : Delimited (c :: rest)) : Delimited (trail ++ c :: rest) := by
  cases trail with
  | nil => exact hc
  | cons d trail => exact delimited_cons (delimited_of_blank (h d List.mem_cons_self)) _

/-- Blanks and then this text are read as this value, whatever follows. -/
def Reads {α : Type} (read : Reader α) (text : List Char) (a : α) : Prop :=
  ∀ lead rest, JsonBlanks lead → Delimited rest → read (lead ++ text ++ rest) = .ok (a, rest)

section texts

theorem hexValue?_digitChar : ∀ m < 16, hexValue? (Nat.digitChar m) = some m := by
  decide

theorem readHex_hexDigits {n : Nat} (h : n < 65536) (cs : List Char) :
    readHex (hexDigits 4 n ++ cs) = .ok (n, cs) := by
  have hvalue : ∀ m, hexValue? (Nat.digitChar (m % 16)) = some (m % 16) := fun m =>
    hexValue?_digitChar (m % 16) (Nat.mod_lt m (by decide))
  have hdigits : hexDigits 4 n ++ cs =
      Nat.digitChar (n / 16 / 16 / 16 % 16) :: Nat.digitChar (n / 16 / 16 % 16) ::
        Nat.digitChar (n / 16 % 16) :: Nat.digitChar (n % 16) :: cs := by
    simp [hexDigits]
  have hsum : ((16 * (n / 16 / 16 / 16 % 16) + n / 16 / 16 % 16) * 16 + n / 16 % 16) * 16 +
      n % 16 = n := by
    omega
  rw [hdigits, readHex]
  simp only [hvalue, hsum]

theorem readEscape_hex (c : Char) (h : c.toNat < 0x20) (cs : List Char) :
    readEscape ('u' :: (hexDigits 4 c.toNat ++ cs)) = .ok (c, cs) := by
  have hread := readHex_hexDigits (n := c.toNat) (by omega) cs
  have hlow : c.toNat < 0xD800 ∨ 0xDFFF < c.toNat := Or.inl (by omega)
  simp only [readEscape, hread, bind, Except.bind, if_pos hlow, Char.ofNat_toNat, ↓reduceIte]

/-- Each character is read back from the way it is written between quotes. -/
theorem textFrom_escapeChar (fuel : Nat) (before : List Char) (c : Char) (cs : List Char) :
    textFrom (fuel + 1) before (Json.escapeChar c ++ cs) = textFrom fuel (c :: before) cs := by
  unfold Json.escapeChar
  -- the seven escapes of one letter
  iterate 7
    split
    · subst_vars
      rfl
  split
  next h =>
    rw [List.cons_append, List.cons_append, textFrom, if_neg (by decide), if_pos rfl,
      readEscape_hex c h]
  next hquote hbackslash _ _ _ _ _ h =>
    rw [List.singleton_append, textFrom, if_neg hquote, if_neg hbackslash, if_neg h]

theorem textFrom_escaped (cs : List Char) {fuel : Nat} (h : cs.length < fuel) (before : List Char)
    (rest : List Char) :
    textFrom fuel before (cs.flatMap Json.escapeChar ++ '"' :: rest) =
      .ok (String.ofList (before.reverse ++ cs), rest) := by
  induction cs generalizing fuel before with
  | nil =>
    obtain ⟨fuel, rfl⟩ := Nat.exists_eq_add_one_of_ne_zero (Nat.ne_of_gt h)
    rw [List.flatMap_nil, List.nil_append, textFrom, if_pos rfl, List.append_nil]
  | cons c cs ih =>
    obtain ⟨fuel, rfl⟩ := Nat.exists_eq_add_one_of_ne_zero (Nat.ne_of_gt (Nat.zero_lt_of_lt h))
    rw [List.flatMap_cons, List.append_assoc, textFrom_escapeChar,
      ih (Nat.lt_of_succ_lt_succ h)]
    simp

theorem length_le_escaped (cs : List Char) : cs.length ≤ (cs.flatMap Json.escapeChar).length := by
  have hne : ∀ c, 1 ≤ (Json.escapeChar c).length := by
    intro c
    unfold Json.escapeChar
    repeat' split
    all_goals simp
  induction cs with
  | nil => exact Nat.le_refl 0
  | cons c cs ih =>
    have := hne c
    rw [List.flatMap_cons, List.length_append, List.length_cons]
    omega

/-- A text is read back from between its quotes, whatever characters it has. -/
theorem readTextBody_quoted (s : String) (rest : List Char) :
    readTextBody (s.toList.flatMap Json.escapeChar ++ '"' :: rest) = .ok (s, rest) := by
  have hfuel := length_le_escaped s.toList
  rw [readTextBody, textFrom_escaped s.toList (by rw [List.length_append, List.length_cons]; omega)]
  simp

theorem skipBlanks_quoted {lead : List Char} (h : JsonBlanks lead) (s : String)
    (rest : List Char) :
    skipBlanks (lead ++ Json.quotedChars s ++ rest) =
      '"' :: (s.toList.flatMap Json.escapeChar ++ '"' :: rest) := by
  rw [List.append_assoc, skipBlanks_append h, Json.quotedChars]
  simp [skipBlanks_cons (c := '"') rfl]

theorem readName_quoted {lead : List Char} (h : JsonBlanks lead) (s : String) (rest : List Char) :
    readName (lead ++ Json.quotedChars s ++ rest) = .ok (s, rest) := by
  rw [readName, skipBlanks_quoted h]
  simp only [↓reduceIte, readTextBody_quoted]

end texts

section numbers

variable {ds rest : List Char}

theorem head?_toDigits_ne {n : Nat} (h : 0 < n) : (Nat.toDigits 10 n).head? ≠ some '0' := by
  induction n using Nat.strongRecOn with
  | ind n ih =>
    have hsmall : ∀ m < 10, 0 < m → [Nat.digitChar m].head? ≠ some '0' := by decide
    by_cases hlt : n < 10
    · rw [Nat.toDigits_of_lt_base hlt]
      exact hsmall n hlt h
    · have hle : 10 ≤ n := Nat.le_of_not_lt hlt
      have hquotient : 0 < n / 10 := Nat.div_pos hle (by decide)
      rw [Nat.toDigits_of_base_le (by decide) hle, List.head?_append_of_ne_nil]
      · exact ih (n / 10) (Nat.div_lt_self h (by decide)) hquotient
      · exact Nat.toDigits_ne_nil

theorem head?_toDigits {n : Nat} (h : (Nat.toDigits 10 n).head? = some '0') :
    (Nat.toDigits 10 n).length = 1 := by
  rcases Nat.eq_zero_or_pos n with rfl | hpos
  · rfl
  · exact absurd h (head?_toDigits_ne hpos)

theorem readDigits_append (hne : ds ≠ []) (hd : ∀ c ∈ ds, c.isDigit = true)
    (hr : Delimited rest) : readDigits (ds ++ rest) = .ok (ds, rest) := by
  obtain ⟨c, cs, rfl⟩ := List.exists_cons_of_ne_nil hne
  have hstop : rest.takeWhile Char.isDigit = [] ∧ rest.dropWhile Char.isDigit = rest := by
    cases rest with
    | nil => exact ⟨rfl, rfl⟩
    | cons e es =>
      have he := (hr e rfl).1
      simp [he]
  have htake : (c :: cs ++ rest).takeWhile Char.isDigit = c :: cs ++ rest.takeWhile Char.isDigit :=
    List.takeWhile_append_of_pos hd
  have hdrop : (c :: cs ++ rest).dropWhile Char.isDigit = rest.dropWhile Char.isDigit :=
    List.dropWhile_append_of_pos hd
  rw [hstop.1, List.append_nil] at htake
  rw [hstop.2] at hdrop
  rw [List.cons_append] at htake hdrop ⊢
  rw [readDigits, if_pos (hd c List.mem_cons_self), htake, hdrop]

theorem readNumeral_append (negative : Bool) (hne : ds ≠ []) (hd : ∀ c ∈ ds, c.isDigit = true)
    (hz : ds.head? = some '0' → ds.length = 1) (hr : Delimited rest) :
    readNumeral negative (ds ++ rest) = .ok (⟨negative, ds, [], none⟩, rest) := by
  have hwhole : readWhole (ds ++ rest) = .ok (ds, rest) := by
    have hzero : ¬(ds.head? = some '0' ∧ ds.length ≠ 1) := fun h => h.2 (hz h.1)
    simp only [readWhole, readDigits_append hne hd hr, bind, Except.bind, if_neg hzero]
  have hfraction : readFraction rest = .ok ([], rest) := by
    unfold readFraction
    split
    next => exact absurd rfl (hr '.' rfl).2.1
    next => rfl
  have hexponent : readExponent rest = .ok (none, rest) := by
    unfold readExponent
    split
    next => rfl
    next c cs =>
      obtain ⟨_, _, he, hE⟩ := hr c rfl
      rw [if_neg (not_or.mpr ⟨he, hE⟩)]
  simp only [readNumeral, hwhole, hfraction, hexponent, bind, Except.bind]

theorem appendDigits_eq {n : Nat} (h : Nat.ofDigitChars 10 ds n < Nat.pow 2 64) :
    appendDigits n ds = (Nat.ofDigitChars 10 ds n, 0) := by
  induction ds generalizing n with
  | nil => rfl
  | cons c cs ih =>
    rw [Nat.ofDigitChars_cons] at h ⊢
    have hle := le_ofDigitChars cs (10 * n + (c.toNat - '0'.toNat))
    have hfits : 10 * n + digitValue c < Nat.pow 2 64 := Nat.lt_of_le_of_lt hle h
    rw [appendDigits, if_pos hfits]
    exact ih h

theorem readNumber_toDigits {n : Nat} (h : n < Nat.pow 2 64) (hr : Delimited rest) :
    readNumber false (Nat.toDigits 10 n ++ rest) = .ok (.integer n, rest) := by
  have hdigits : ∀ c ∈ Nat.toDigits 10 n, c.isDigit = true :=
    fun c hc => Nat.isDigit_of_mem_toDigits (by decide) (by decide) hc
  have hvalue : appendDigits 0 (Nat.toDigits 10 n) = (n, 0) := by
    have hfits : Nat.ofDigitChars 10 (Nat.toDigits 10 n) 0 < Nat.pow 2 64 := by
      rwa [Nat.ofDigitChars_ten_toDigits]
    rw [appendDigits_eq hfits, Nat.ofDigitChars_ten_toDigits]
  have hfound : Numeral.found? ⟨false, Nat.toDigits 10 n, [], none⟩ = some (.integer n) := by
    simp [Numeral.found?, hvalue]
  rw [readNumber, readNumeral_append false Nat.toDigits_ne_nil hdigits head?_toDigits hr]
  simp only [bind, Except.bind, hfound]

end numbers

section found

variable {lead : List Char}

theorem readFound_append (h : JsonBlanks lead) (cs : List Char) :
    readFound (lead ++ cs) = readFound cs := by
  rw [readFound, readFound, skipBlanks_append h]

theorem readFound_object (h : JsonBlanks lead) (cs : List Char) :
    readFound (lead ++ '\x7b' :: cs) = .ok (.object, cs) := by
  rw [readFound_append h]
  rfl

theorem readFound_list (h : JsonBlanks lead) (cs : List Char) :
    readFound (lead ++ '[' :: cs) = .ok (.list, cs) := by
  rw [readFound_append h]
  rfl

theorem readFound_digit {c : Char} (h : c.isDigit = true) (cs : List Char) :
    readFound (c :: cs) = readNumber false (c :: cs) := by
  have hne : ∀ d : Char, d.isDigit = false → c ≠ d := by
    rintro _ hd rfl
    cases h.symm.trans hd
  have hblank : isJsonBlank c = false := by
    simp [isJsonBlank, hne ' ' rfl, hne '\t' rfl, hne '\n' rfl, hne '\r' rfl]
  rw [readFound, skipBlanks_cons hblank]
  simp only [hne 'n' rfl, hne 't' rfl, hne 'f' rfl, hne '"' rfl, hne '[' rfl, hne '\x7b' rfl,
    hne '-' rfl, h, ↓reduceIte]

theorem reads_text (s : String) : Reads readFound (Json.scalarChars (.text s)) (.text s) := by
  intro lead rest hlead _
  rw [readFound, Json.scalarChars, skipBlanks_quoted hlead]
  simp only [Char.reduceEq, ↓reduceIte, readTextBody_quoted, bind, Except.bind]

theorem reads_bool (b : Bool) : Reads readFound (Json.scalarChars (.bool b)) (.bool b) := by
  intro lead rest hlead _
  rw [List.append_assoc, readFound_append hlead]
  cases b <;> rfl

theorem reads_integer {n : Nat} (h : n < Nat.pow 2 64) :
    Reads readFound (Json.scalarChars (.integer n)) (.integer n) := by
  intro lead rest hlead hrest
  have hchars : Json.scalarChars (.integer n) = Nat.toDigits 10 n := by
    have hlist : (toString n).toList = Nat.toDigits 10 n := by simp
    exact hlist
  have hnumber := readNumber_toDigits h hrest
  rw [List.append_assoc, readFound_append hlead, hchars]
  cases hcs : Nat.toDigits 10 n with
  | nil => exact absurd hcs Nat.toDigits_ne_nil
  | cons c cs =>
    have hc : c.isDigit = true :=
      Nat.isDigit_of_mem_toDigits (b := 10) (n := n) (by decide) (by decide)
        (hcs ▸ List.mem_cons_self)
    rw [hcs] at hnumber
    rw [List.cons_append, readFound_digit hc]
    exact hnumber

theorem Reads.convert {α : Type} {text : List Char} {f : Found} {a : α}
    {convert : Found → Except Mismatch α} (h : Reads readFound text f) (hf : convert f = .ok a) :
    Reads (readAs convert) text a := by
  intro lead rest hlead hrest
  simp only [readAs, h lead rest hlead hrest, bind, Except.bind, hf]

end found

theorem Reads.whole {α : Type} {read : Reader α} {text : List Char} {a : α}
    (h : Reads read text a) : readWholeText read (String.ofList text) = .ok a := by
  have hread : read text = .ok (a, []) := by
    have hempty := h [] [] (fun _ hc => nomatch hc) delimited_nil
    rwa [List.nil_append, List.append_nil] at hempty
  simp only [readWholeText, String.toList_ofList, hread, bind, Except.bind]
  rfl

end NodeLayers
