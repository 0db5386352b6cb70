import NodeLayers.Found

namespace NodeLayers

/-- Why a text is not read as a value: it is not well formed, it ends too early, or a value does not
fit. -/
inductive JsonError
  | malformed
  | ended
  | mismatch (reason : Mismatch)

/-- A value read from the front of a text, with what follows it. -/
abbrev Parsed (α : Type) :=
  α × List Char

abbrev Reader (α : Type) :=
  List Char → Except JsonError (Parsed α)

structure Numeral where
  negative : Bool
  whole : List Char
  fraction : List Char
  exponent : Option (Bool × List Char)
deriving DecidableEq, Repr

def readDigits (cs : List Char) : Except JsonError (Parsed (List Char)) :=
  match cs with
  | [] => .error .ended
  | c :: _ =>
    if c.isDigit then .ok (cs.takeWhile Char.isDigit, cs.dropWhile Char.isDigit)
    else .error .malformed

/-- The digits before the point; a zero in front stands alone. -/
def readWhole (cs : List Char) : Except JsonError (Parsed (List Char)) := do
  let (digits, rest) ← readDigits cs
  if digits.head? = some '0' ∧ digits.length ≠ 1 then .error .malformed else .ok (digits, rest)

def readFraction (cs : List Char) : Except JsonError (Parsed (List Char)) :=
  match cs with
  | '.' :: rest => readDigits rest
  | _ => .ok ([], cs)

def readExponent (cs : List Char) : Except JsonError (Parsed (Option (Bool × List Char))) :=
  match cs with
  | [] => .ok (none, [])
  | c :: rest =>
    if c = 'e' ∨ c = 'E' then do
      let (negative, rest) := match rest with
        | '-' :: rest => (true, rest)
        | '+' :: rest => (false, rest)
        | _ => (false, rest)
      let (digits, rest) ← readDigits rest
      .ok (some (negative, digits), rest)
    else .ok (none, cs)

def readNumeral (negative : Bool) (cs : List Char) : Except JsonError (Parsed Numeral) := do
  let (whole, cs) ← readWhole cs
  let (fraction, cs) ← readFraction cs
  let (exponent, cs) ← readExponent cs
  .ok (⟨negative, whole, fraction, exponent⟩, cs)

def digitValue (c : Char) : Nat :=
  c.toNat - '0'.toNat

/-- Appends digits to a number as long as it fits in 64 bits, and tells how many were left over. -/
def appendDigits (n : Nat) : List Char → Nat × Nat
  | [] => (n, 0)
  | c :: cs =>
    let m := 10 * n + digitValue c
    if m < Nat.pow 2 64 then appendDigits m cs else (n, cs.length + 1)

def divideByTens (x : Float) (power : Nat) : Float :=
  if power ≤ 308 then x / Float.ofScientific 1 false power
  else if x == 0 then x
  else divideByTens (x / Float.ofScientific 1 false 308) (power - 308)
termination_by power

/-- `n · 10 ^ power` by one float multiplication or by divisions; none if it is out of range. -/
def scaledFloat? (n : Nat) (power : Int) : Option Float :=
  let x := n.toUInt64.toFloat
  if power < 0 then some (divideByTens x (-power).toNat)
  else if n = 0 then some x
  else if power ≤ 308 then
    let y := x * Float.ofScientific 1 false power.toNat
    if y.isInf then none else some y
  else none

namespace Numeral

/-- The number without its sign as a float. Digits that do not fit in 64 bits count only for the
place of the point. An exponent beyond 31 bits leaves zero or is out of range. -/
def magnitude? (n : Numeral) : Option Float :=
  let whole := appendDigits 0 n.whole
  let all := appendDigits whole.1 n.fraction
  let place : Int := whole.2 - (n.fraction.length - all.2 : Nat)
  match n.exponent with
  | none => scaledFloat? all.1 place
  | some (negative, digits) =>
    let size := digits.foldl (fun m c => 10 * m + digitValue c) 0
    if size < Nat.pow 2 31 then scaledFloat? all.1 (if negative then place - size else place + size)
    else if all.1 = 0 ∨ negative then some 0
    else none

/-- Without point and exponent a number is an integer if it fits in 64 bits, with or without a sign;
a negative zero does not. Everything else is a float. -/
def found? (n : Numeral) : Option Found :=
  let whole := appendDigits 0 n.whole
  let integral := n.fraction.isEmpty && n.exponent.isNone && whole.2 == 0
  if integral && !n.negative then some (.integer whole.1)
  else if integral && 0 < whole.1 && whole.1 ≤ Nat.pow 2 63 then some (.integer (-whole.1))
  else n.magnitude?.map fun x => .real (if n.negative then -x else x)

end Numeral

end NodeLayers
