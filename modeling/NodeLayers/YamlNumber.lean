namespace NodeLayers

def decimalValue (digits : List Char) : Nat :=
  digits.foldl (fun n c => 10 * n + (c.toNat - '0'.toNat)) 0

/-- The value of digits in a base up to sixteen, none if there are no digits or others. -/
def digitsValue? (base : Nat) (digits : List Char) : Option Nat :=
  if digits.isEmpty then none
  else digits.foldlM (fun n c =>
    let d :=
      if '0' ≤ c ∧ c ≤ '9' then c.toNat - '0'.toNat
      else if 'a' ≤ c ∧ c ≤ 'f' then c.toNat - 'a'.toNat + 10
      else if 'A' ≤ c ∧ c ≤ 'F' then c.toNat - 'A'.toNat + 10
      else base
    if d < base then some (base * n + d) else none) 0

def announcedBase? : List Char → Option (Nat × List Char)
  | '0' :: 'x' :: rest => some (16, rest)
  | '0' :: 'o' :: rest => some (8, rest)
  | '0' :: 'b' :: rest => some (2, rest)
  | _ => none

/-- An integer with its base in front, which fits in 128 bits. -/
def isBasedInteger (s : List Char) : Bool :=
  let fits (limit : Nat) (digits : List Char) : Bool :=
    (announcedBase? digits).any fun (base, rest) => (digitsValue? base rest).any (· ≤ limit)
  match s with
  | '+' :: rest => fits (Nat.pow 2 128 - 1) rest
  | '-' :: rest => fits (Nat.pow 2 127) rest
  | _ => fits (Nat.pow 2 128 - 1) s

/-- Digits after a leading zero, with or without a sign, are no number but may be taken for one. -/
def isZeroPadded (s : List Char) : Bool :=
  let digits := if s.head? = some '-' ∨ s.head? = some '+' then s.tail else s
  1 < digits.length && digits.head? = some '0' && digits.all Char.isDigit

/-- `digits · 10 ^ power` lies below the least number that a float cannot hold. -/
def isFiniteDecimal (digits : List Char) (power : Int) : Bool :=
  let n := decimalValue digits
  let limit := (Nat.pow 2 54 - 1) * Nat.pow 2 970
  if n = 0 then true
  else if power < 0 then
    digits.length ≤ (-power).toNat || n < limit * Nat.pow 10 (-power).toNat
  else power ≤ 310 && n * Nat.pow 10 power.toNat < limit

def exponentValue? : List Char → Option Int
  | [] => some 0
  | e :: rest =>
    if e = 'e' ∨ e = 'E' then
      let digits := if rest.head? = some '-' ∨ rest.head? = some '+' then rest.tail else rest
      if digits.isEmpty || !digits.all Char.isDigit then none
      else if rest.head? = some '-' then some (-decimalValue digits)
      else some (decimalValue digits)
    else none

/-- A decimal number without a sign, with a point or an exponent or neither. -/
def isUnsignedDecimal (s : List Char) : Bool :=
  let whole := s.takeWhile Char.isDigit
  let rest := s.dropWhile Char.isDigit
  let (fraction, rest) := match rest with
    | '.' :: rest => (rest.takeWhile Char.isDigit, rest.dropWhile Char.isDigit)
    | _ => ([], rest)
  !(whole ++ fraction).isEmpty &&
    (exponentValue? rest).any fun e => isFiniteDecimal (whole ++ fraction) (e - fraction.length)

/-- A float, or one of the names of infinity and of no number. -/
def isDecimal (s : List Char) : Bool :=
  let named := [".inf", ".Inf", ".INF"].map String.toList
  match s with
  | '+' :: rest => rest ∈ named ∨ (rest.head? ≠ some '-' ∧ isUnsignedDecimal rest)
  | '-' :: rest => rest ∈ named ∨ isUnsignedDecimal rest
  | _ => s ∈ named ∨ s ∈ [".nan", ".NaN", ".NAN"].map String.toList ∨ isUnsignedDecimal s

/-- A text that a reader of YAML would take for a number, or might. -/
def readsAsNumber (s : List Char) : Bool :=
  isBasedInteger s || isZeroPadded s || isDecimal s

end NodeLayers
