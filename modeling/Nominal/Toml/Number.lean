import Nominal.Toml.Strings

/-!
# Numbers, dates and times

Integers are decimal, hexadecimal, octal or binary and fit in 64 bits with a sign. Floats have a
fraction, an exponent or both, and positive ones do not overflow. Single underscores may stand
between digits. Dates, times and offsets are within the calendar.
-/

namespace Nominal.Toml

/-- Digits with single underscores between them, without the underscores. -/
def ungroup? (isDigit : Char → Bool) : List Char → Option (List Char)
  | [] => none
  | [c] => if isDigit c then some [c] else none
  | c :: '_' :: rest => if isDigit c then (ungroup? isDigit rest).map (c :: ·) else none
  | c :: rest => if isDigit c then (ungroup? isDigit rest).map (c :: ·) else none

/-- The number that digits spell in a base. -/
def number (base : Nat) (digits : List Char) : Nat :=
  digits.foldl (fun number c => base * number + (hexDigit? c).getD 0) 0

/-- The sign of a number, negative or not, and what follows. -/
def sign : List Char → Bool × List Char
  | '-' :: rest => (true, rest)
  | '+' :: rest => (false, rest)
  | chars => (false, chars)

/-- The digits of a decimal number. Only zero itself begins with a zero. -/
def decimalDigits? (chars : List Char) : Option (List Char) := do
  let digits ← ungroup? Char.isDigit chars
  if digits.head? == some '0' && chars.length ≠ 1 then none else some digits

/-- A number of 64 bits with a sign. -/
def int64? (value : Int) : Option Int :=
  if -9223372036854775808 ≤ value && value ≤ 9223372036854775807 then some value else none

/-- A digit of a base up to sixteen. -/
def isDigitOf (base : Nat) (c : Char) : Bool := (hexDigit? c).any (· < base)

/-- An unsigned integer in a base other than ten. -/
def based? (base : Nat) (chars : List Char) : Option Int := do
  int64? (number base (← ungroup? (isDigitOf base) chars))

/-- An integer. -/
def integer? : List Char → Option Int
  | '0' :: 'x' :: rest => based? 16 rest
  | '0' :: 'o' :: rest => based? 8 rest
  | '0' :: 'b' :: rest => based? 2 rest
  | chars => do
      let (negative, rest) := sign chars
      let magnitude : Int := number 10 (← decimalDigits? rest)
      int64? (if negative then -magnitude else magnitude)

/-- The exponent of a float. -/
def exponent? : List Char → Option Int
  | [] => some 0
  | c :: rest =>
      if c == 'e' || c == 'E' then do
        let (negative, rest) := sign rest
        let magnitude : Int := number 10 (← ungroup? Char.isDigit rest)
        return if negative then -magnitude else magnitude
      else none

/-- The fraction digits of a float. -/
def fraction? : List Char → Option (List Char)
  | [] => some []
  | '.' :: rest => ungroup? Char.isDigit rest
  | _ => none

/-- The nearest float to `mantissa` times ten to the power `exponent`. Powers far beyond the range
of floats are cut short. -/
def nearestFloat (mantissa : Nat) (exponent : Int) : Float :=
  if mantissa == 0 then 0.0
  else
    let size : Int := (Nat.toDigits 10 mantissa).length + exponent
    if 400 < size then 1.0 / 0.0
    else if size < -400 then 0.0
    else if 0 ≤ exponent then Float.ofScientific mantissa false exponent.toNat
    else Float.ofScientific mantissa true (-exponent).toNat

/-- A float with digits. -/
def decimalFloat? (chars : List Char) : Option Float := do
  let (negative, rest) := sign chars
  let isExponentMark := fun c => c == 'e' || c == 'E'
  let head := rest.takeWhile (fun c => !isExponentMark c)
  let tail := rest.dropWhile (fun c => !isExponentMark c)
  let whole := head.takeWhile (· != '.')
  let point := head.dropWhile (· != '.')
  if point.isEmpty && tail.isEmpty then none
  else
    let wholeDigits ← decimalDigits? whole
    let fraction ← fraction? point
    let exponent ← exponent? tail
    let magnitude :=
      nearestFloat (number 10 (wholeDigits ++ fraction)) (exponent - fraction.length)
    if negative then some (-magnitude)
    else if magnitude == 1.0 / 0.0 then none
    else some magnitude

/-- A float. -/
def float? (chars : List Char) : Option Float :=
  let (negative, rest) := sign chars
  let signed := fun (value : Float) => some (if negative then -value else value)
  if rest == "inf".toList then signed (1.0 / 0.0)
  else if rest == "nan".toList then signed (0.0 / 0.0)
  else decimalFloat? chars

/-- A number of exactly `width` digits within bounds. -/
def field? (width low high : Nat) (chars : List Char) : Option (Nat × List Char) :=
  let digits := chars.take width
  let value := number 10 digits
  if digits.length == width && digits.all Char.isDigit && low ≤ value && value ≤ high then
    some (value, chars.drop width)
  else none

/-- The number of days in a month of a year. -/
def daysIn (year month : Nat) : Nat :=
  if month == 2 then
    if year % 4 == 0 && (year % 100 != 0 || year % 400 == 0) then 29 else 28
  else if month == 4 || month == 6 || month == 9 || month == 11 then 30
  else 31

/-- Take a date. -/
def date? (chars : List Char) : Option (List Char) := do
  let (year, rest) ← field? 4 0 9999 chars
  let (month, rest) ← field? 2 1 12 (← expect? '-' rest)
  let (_, rest) ← field? 2 1 (daysIn year month) (← expect? '-' rest)
  return rest

/-- Take the fraction of a second, if there is one. -/
def secondFraction? : List Char → Option (List Char)
  | '.' :: c :: rest => if c.isDigit then some (rest.dropWhile Char.isDigit) else none
  | '.' :: [] => none
  | chars => some chars

/-- Take a time of day. -/
def time? (chars : List Char) : Option (List Char) := do
  let (_, rest) ← field? 2 0 23 chars
  let (_, rest) ← field? 2 0 59 (← expect? ':' rest)
  let (_, rest) ← field? 2 0 60 (← expect? ':' rest)
  secondFraction? rest

/-- Take an offset from universal time, if there is one. -/
def offset? : List Char → Option (List Char)
  | [] => some []
  | c :: rest =>
      if c == 'Z' || c == 'z' then some rest
      else if c == '+' || c == '-' then do
        let (_, rest) ← field? 2 0 23 rest
        let (_, rest) ← field? 2 0 59 (← expect? ':' rest)
        return rest
      else none

/-- Whether the text is a date, a time, or a date with a time and possibly an offset. -/
def isMoment (chars : List Char) : Bool :=
  match date? chars with
  | some [] => true
  | some (c :: rest) =>
      (c == 'T' || c == 't' || c == ' ') && ((time? rest).bind offset?).any List.isEmpty
  | none => (time? chars).any List.isEmpty

/-- A character of a number, a date, a time or a word. -/
def isScalarChar (c : Char) : Bool :=
  c.isAlphanum || c == '+' || c == '-' || c == '_' || c == '.' || c == ':'

/-- Whether a time of day follows a date after a space. -/
def timeFollows (spelling rest : List Char) : Bool :=
  (date? spelling).any List.isEmpty &&
    match rest with
    | ' ' :: c :: _ => c.isDigit
    | _ => false

/-- The spelling of a number, a date, a time or a word, and the rest. -/
def spellingOf (chars : List Char) : List Char × List Char :=
  let spelling := chars.takeWhile isScalarChar
  let rest := chars.dropWhile isScalarChar
  if timeFollows spelling rest then
    let rest := rest.drop 1
    (spelling ++ ' ' :: rest.takeWhile isScalarChar, rest.dropWhile isScalarChar)
  else (spelling, rest)

/-- The value with a given spelling. -/
def scalarOf? (spelling : List Char) : Option Value :=
  if spelling == "true".toList then some (.boolean true)
  else if spelling == "false".toList then some (.boolean false)
  else if isMoment spelling then some (.moment (String.ofList spelling))
  else
    match float? spelling with
    | some value => some (.float value)
    | none => (integer? spelling).map Value.integer

/-- A number, a date, a time or a truth value. -/
def scalarValue? : Reader Value := fun chars => do
  let (spelling, rest) := spellingOf chars
  return (← scalarOf? spelling, rest)

end Nominal.Toml
