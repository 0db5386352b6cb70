import NodeLayers.Fault

namespace NodeLayers

def readBool (s : String) : Except ValueFault Bool :=
  if s ∈ ["1", "t", "T", "TRUE", "true", "True"] then .ok true
  else if s ∈ ["0", "f", "F", "FALSE", "false", "False"] then .ok false
  else .error .notBoolean

/-- The number that ASCII digits go on to write after `n`, as long as it fits in sixteen bits. -/
def portFrom (n : Nat) : List Char → Except PortFault Nat
  | [] => .ok n
  | c :: cs =>
    if c.isDigit then
      let m := 10 * n + (c.toNat - '0'.toNat)
      if m < 65536 then portFrom m cs else .error .tooLarge
    else .error .notDigit

/-- A port is written in ASCII digits, without a sign. -/
def readPort (s : String) : Except ValueFault UInt16 :=
  match s.toList with
  | [] => .error (.port .empty)
  | c :: cs =>
    if c = '+' ∨ c = '-' then .error .signed
    else ((portFrom 0 (c :: cs)).map Nat.toUInt16).mapError .port

end NodeLayers
