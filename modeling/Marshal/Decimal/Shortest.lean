import Marshal.Decimal.Binary64
/-!
# Shortest decimals

`Shortest.digits` gives the fewest decimal digits that read back to a positive double, and of those the nearest; the
even one of two that are equally near. A decimal reads back when it lies in the interval of reals that round to the
double, whose ends belong to it when the significand is even. All of it is exact: with `unit` one quarter of the last
place, every quantity below is a whole number of units.

`Style.render` lays the digits out.
-/
namespace Marshal.Decimal

-- Powers are those of the core library, whatever else is in scope.
attribute [local instance (high)] instPowNat

/-- The number `0.d₁d₂…dₖ * 10 ^ point`: its digits as one number, how many there are, and where the point stands. -/
structure Digits where
  value : Nat
  count : Nat
  point : Int
deriving Repr

def decimalLength (n : Nat) : Nat := (Nat.toDigits 10 n).length

/-- The interval around a value `mid / scale` that rounds to it. -/
structure Interval where
  low : Nat
  mid : Nat
  high : Nat
  scale : Nat
  closed : Bool

/-- The reals that round to a positive finite double. Below a power of two the neighbour is half as far away. -/
def Interval.ofBinary64 (b : Binary64) : Interval :=
  let p := b.parts
  let m := 4 * p.significand * 2 ^ p.exponent
  let step := 2 ^ p.exponent
  let narrow := b.fraction == 0 && 1 < b.biasedExponent
  ⟨m - (if narrow then step else 2 * step), m, m + 2 * step, 4 * 2 ^ (1075 : Nat), p.significand % 2 == 0⟩

def Interval.contains (i : Interval) (n d : Nat) : Bool :=
  if i.closed then i.low * d ≤ n * i.scale && n * i.scale ≤ i.high * d
  else i.low * d < n * i.scale && n * i.scale < i.high * d

/-- The point of a value: `10 ^ (point - 1) ≤ mid / scale < 10 ^ point`. -/
def Interval.point (i : Interval) : Int := decimalLength (i.mid * 10 ^ (350 : Nat) / i.scale) - 350

/-- The decimal with `count` digits nearest to the value among those that read back. -/
def Interval.onGrid? (i : Interval) (count : Nat) : Option Digits :=
  let e := i.point - count
  let up := 10 ^ e.toNat
  let down := 10 ^ (-e).toNat
  let below := i.mid * down / (i.scale * up)
  let twice := 2 * i.mid * down
  let middle := (2 * below + 1) * i.scale * up
  let nearer := if twice < middle ∨ (twice = middle ∧ below % 2 = 0) then below else below + 1
  let farther := if nearer = below then below + 1 else below
  (([nearer, farther].filter (fun d => i.contains (d * up) down)).head?).map (fun d => ⟨d, count, i.point⟩)

/-- Drops zeros at the end and moves a carry past the point. -/
def Digits.normal (d : Digits) : Digits :=
  let text := Nat.toDigits 10 d.value
  let zeros := (text.reverse.takeWhile (· == '0')).length
  ⟨d.value / 10 ^ zeros, text.length - zeros, d.point + (text.length - d.count : Int)⟩

/-- The shortest digits of a positive finite double; seventeen always suffice. -/
def shortest (b : Binary64) : Digits :=
  let i := Interval.ofBinary64 b
  (((List.range 17).findSome? (fun k => i.onGrid? (k + 1))).getD ⟨0, 1, 1⟩).normal

/-- How a number's digits are laid out. -/
structure Style where
  /-- The least and greatest point that are written without an exponent. -/
  leastPoint : Int
  greatestPoint : Int
  /-- The least number of digits of an exponent. -/
  exponentDigits : Nat

def Style.padded (s : Style) (n : Nat) : List Char :=
  let ds := Nat.toDigits 10 n
  List.replicate (s.exponentDigits - ds.length) '0' ++ ds

/-- Digits without an exponent; a whole number ends in a point and a zero. -/
def positional (ds : List Char) (point : Int) : List Char :=
  if point ≤ 0 then '0' :: '.' :: (List.replicate (-point).toNat '0' ++ ds)
  else
    let whole := ds.take point.toNat
    let rest := ds.drop point.toNat
    whole ++ List.replicate (point.toNat - ds.length) '0' ++ '.' :: (if rest.isEmpty then ['0'] else rest)

/-- Digits with an exponent; the point is left out after a lone digit. -/
def Style.scientific (s : Style) (ds : List Char) (point : Int) : List Char :=
  let e := point - 1
  ds.take 1 ++ (if ds.length ≤ 1 then [] else '.' :: ds.drop 1) ++
    'e' :: (if e < 0 then '-' else '+') :: s.padded e.natAbs

def Style.renderDigits (s : Style) (d : Digits) : List Char :=
  let ds := Nat.toDigits 10 d.value
  if s.leastPoint ≤ d.point ∧ d.point ≤ s.greatestPoint then positional ds d.point else s.scientific ds d.point

def Style.render (s : Style) (b : Binary64) : String :=
  if b.isNaN then "nan"
  else
    let sign := if b.isNegative then "-" else ""
    if !b.isFinite then sign ++ "inf"
    else if b.isZero then sign ++ "0.0"
    else sign ++ String.ofList (s.renderDigits (shortest b))

end Marshal.Decimal
