namespace NodeLayers

/-- A positive float between the numbers half way to its neighbours, all three counted in quarters
`2 ^ exponent` of its last binary place; `closed` tells whether the ends read back as the float. -/
structure Dyadic where
  low : Nat
  value : Nat
  high : Nat
  exponent : Int
  closed : Bool
deriving DecidableEq, Repr

/-- The magnitude of a finite float that is not zero. A power of two has its lower neighbour half as
far away as its upper one, and halves go to the even significand. -/
def Dyadic.ofFloat (x : Float) : Dyadic :=
  let bits := x.toBits.toNat
  let field := bits / Nat.pow 2 52 % Nat.pow 2 11
  let fraction := bits % Nat.pow 2 52
  let significand := if field = 0 then fraction else Nat.pow 2 52 + fraction
  let below := if fraction = 0 ∧ 1 < field then 1 else 2
  ⟨4 * significand - below, 4 * significand, 4 * significand + 2,
    Int.ofNat (max field 1) - 1077,
    significand % 2 = 0⟩

/-- A number of quarters, in a measure in which `10 ^ place` is whole too. -/
def Dyadic.scale (d : Dyadic) (place : Int) (quarters : Nat) : Nat :=
  quarters * Nat.pow 2 d.exponent.toNat * Nat.pow 10 (-place).toNat

/-- The decimal unit `10 ^ place` in the same measure. -/
def Dyadic.unit (d : Dyadic) (place : Int) : Nat :=
  Nat.pow 2 (-d.exponent).toNat * Nat.pow 10 place.toNat

/-- The multiple of `10 ^ place` nearest to the number, if one lies between the ends; of two equally
near ones the even. -/
def Dyadic.nearest? (d : Dyadic) (place : Int) : Option Nat :=
  let unit := d.unit place
  let value := d.scale place d.value
  let within (n : Nat) : Bool :=
    let low := d.scale place d.low
    let high := d.scale place d.high
    if d.closed then low ≤ n * unit && n * unit ≤ high else low < n * unit && n * unit < high
  let floor := value / unit
  let rest := 2 * (value % unit)
  let first := if rest < unit ∨ (rest = unit ∧ floor % 2 = 0) then floor else floor + 1
  let second := if first = floor then floor + 1 else floor
  [first, second].find? fun n => 0 < n ∧ within n

/-- The nearest multiple of the largest power of ten, of `steps` powers from `10 ^ place` down, that
has a multiple between the ends. -/
def Dyadic.shortestFrom (d : Dyadic) (place : Int) : Nat → Nat × Int
  | 0 => (0, place)
  | steps + 1 =>
    match d.nearest? place with
    | some n => (n, place)
    | none => d.shortestFrom (place - 1) steps

/-- The fewest digits that read back as the number, and the place of the last of them. -/
def Dyadic.shortest (d : Dyadic) : Nat × Int :=
  d.shortestFrom 309 640

/-- The least and greatest exponent of ten with which a number is written without one. -/
structure Positional where
  least : Int
  greatest : Int
deriving DecidableEq, Repr

/-- The digits of a positive number with a point in them; a whole number ends in `.0`. -/
def positionalText (digits : List Char) (exponent : Int) : List Char :=
  if exponent < 0 then
    '0' :: '.' :: List.replicate (-exponent - 1).toNat '0' ++ digits
  else
    let whole := exponent.toNat + 1
    let fraction := digits.drop whole
    digits.take whole ++ List.replicate (whole - digits.length) '0' ++ '.' ::
      (if fraction.isEmpty then ['0'] else fraction)

/-- The digits of a positive number with a point after the first, and the power of ten. -/
def scientificText (digits : List Char) (exponent : Int) : List Char :=
  let power := 'e' :: (if exponent < 0 then '-' else '+') :: (toString exponent.natAbs).toList
  match digits with
  | d :: e :: rest => d :: '.' :: e :: rest ++ power
  | ds => ds ++ power

/-- The shortest text that reads back as a finite number. -/
def Positional.text (form : Positional) (x : Float) : String :=
  let sign := if x.toBits.toNat < Nat.pow 2 63 then [] else ['-']
  let body :=
    if x.toBits.toNat % Nat.pow 2 63 = 0 then "0.0".toList
    else
      let shortest := (Dyadic.ofFloat x).shortest
      let digits := (toString shortest.1).toList
      let exponent := shortest.2 + digits.length - 1
      if form.least ≤ exponent ∧ exponent ≤ form.greatest then positionalText digits exponent
      else scientificText digits exponent
  String.ofList (sign ++ body)

end NodeLayers
