/-!
# Shortest decimals

The shortest decimal that reads back as a given binary number, and its digits written out without
an exponent. A finite number is `mantissa * 2 ^ exponent`; the decimals that read back as it fill an
interval around it, which includes its ends when the mantissa is even. Decimals of one digit, two
digits and so on are tried until one lies in the interval.
-/

namespace Nominal.Decimal

/-- A positive binary number. -/
structure Binary where
  mantissa : Nat
  exponent : Int
  /-- Whether the next smaller number is only half as far away as the next larger one. -/
  narrow : Bool

/-- A positive fraction `numerator / denominator`, or a bound of an interval of such. -/
structure Ratio where
  numerator : Nat
  denominator : Nat

/-- The numbers `quarters / 4 * 2 ^ exponent`, as fractions. -/
def Binary.scaled (binary : Binary) (quarters : Nat) : Ratio :=
  if 0 ≤ binary.exponent then ⟨quarters <<< binary.exponent.toNat, 4⟩
  else ⟨quarters, 4 <<< (-binary.exponent).toNat⟩

/-- The number itself. -/
def Binary.value (binary : Binary) : Ratio := binary.scaled (4 * binary.mantissa)

/-- The lower end of the interval that reads back as the number. -/
def Binary.low (binary : Binary) : Ratio :=
  binary.scaled (4 * binary.mantissa - if binary.narrow then 1 else 2)

/-- The upper end of the interval that reads back as the number. -/
def Binary.high (binary : Binary) : Ratio := binary.scaled (4 * binary.mantissa + 2)

/-- The fraction of `digits * 10 ^ power`. -/
def decimalRatio (digits : Nat) (power : Int) : Ratio :=
  if 0 ≤ power then ⟨digits * Nat.pow 10 power.toNat, 1⟩ else ⟨digits, Nat.pow 10 (-power).toNat⟩

/-- Whether one fraction is at most another. -/
def Ratio.le (first second : Ratio) : Bool :=
  first.numerator * second.denominator ≤ second.numerator * first.denominator

/-- Whether one fraction is below another. -/
def Ratio.lt (first second : Ratio) : Bool := !second.le first

/-- Whether the decimal `digits * 10 ^ power` reads back as the number. -/
def Binary.reads (binary : Binary) (digits : Nat) (power : Int) : Bool :=
  let decimal := decimalRatio digits power
  if binary.mantissa % 2 == 0 then binary.low.le decimal && decimal.le binary.high
  else binary.low.lt decimal && decimal.lt binary.high

/-- The largest multiple of `10 ^ power` that is not above the number, as its factor. -/
def Binary.floor (binary : Binary) (power : Int) : Nat :=
  let value := binary.value
  if 0 ≤ power then value.numerator / (value.denominator * Nat.pow 10 power.toNat)
  else value.numerator * Nat.pow 10 (-power).toNat / value.denominator

/-- Whether the number is nearer to the multiple after `digits` than to `digits`. -/
def Binary.nearerAbove (binary : Binary) (digits : Nat) (power : Int) : Bool :=
  let middle := decimalRatio (10 * digits + 5) (power - 1)
  middle.lt binary.value || (middle.le binary.value && digits % 2 == 1)

/-- The multiple of `10 ^ power` next to the number that reads back as it, if one does. -/
def Binary.onGrid? (binary : Binary) (power : Int) : Option Nat :=
  let below := binary.floor power
  match binary.reads below power, binary.reads (below + 1) power with
  | true, true => some (if binary.nearerAbove below power then below + 1 else below)
  | true, false => some below
  | false, true => some (below + 1)
  | false, false => none

/-- The first of the grids from `10 ^ power` downward that has a decimal that reads back. -/
def Binary.search (binary : Binary) : Nat → Int → Nat × Int
  | 0, power => (binary.floor power, power)
  | count + 1, power =>
      match binary.onGrid? power with
      | some digits => (digits, power)
      | none => search binary count (power - 1)

/-- The power of ten of the leading digit, or one more. -/
def Binary.leading (binary : Binary) : Int :=
  let value := binary.value
  (Nat.toDigits 10 value.numerator).length - (Nat.toDigits 10 value.denominator).length + 1

/-- The shortest decimal that reads back as the number, as digits and a power of ten. -/
def Binary.shortest (binary : Binary) : Nat × Int := binary.search 20 binary.leading

/-- The decimal written out, with a point only if it has a fraction. -/
def positional (digits : Nat) (power : Int) : String :=
  let spelled := Nat.toDigits 10 digits
  if 0 ≤ power then String.ofList (spelled ++ List.replicate power.toNat '0')
  else
    let places := (-power).toNat
    let padded := List.replicate (places + 1 - spelled.length) '0' ++ spelled
    String.ofList (padded.take (padded.length - places) ++ '.' ::
      padded.drop (padded.length - places))

/-- The number of fractions between two powers of two, which is the 52nd power of two. -/
def fractionCount : Nat := 1 <<< 52

/-- The positive binary number with the given bits, if it is finite and not zero. -/
def Binary.ofBits? (bits : Nat) : Option Binary :=
  let field := bits / fractionCount % 2048
  let fraction := bits % fractionCount
  if field == 2047 || (field == 0 && fraction == 0) then none
  else if field == 0 then some ⟨fraction, -1074, false⟩
  else some ⟨fractionCount + fraction, Int.ofNat field - 1075, fraction == 0 && 1 < field⟩

/-- The text of a float: the shortest digits that read back, written out, and always with a point
if it is finite. -/
def ofFloat (value : Float) : String :=
  if value.isNaN then "NaN"
  else
    let bits := value.toBits.toNat
    let sign := if bits < (1 <<< 63) then "" else "-"
    if value.isInf then sign ++ "inf"
    else
      match Binary.ofBits? (bits % (1 <<< 63)) with
      | none => sign ++ "0.0"
      | some binary =>
          let (digits, power) := binary.shortest
          sign ++ positional digits power ++ if 0 ≤ power then ".0" else ""

end Nominal.Decimal
