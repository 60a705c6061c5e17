import CartScript.Text.Digits
import CartScript.Toml.Value

/-!
# Numbers, truth values and dates of settings files

A reading function returns what it read and the characters after it, or nothing where the file is
malformed.  No character of a number may follow a value, so a number is as many of them as there
are.
-/

namespace CartScript.Toml

/-! ## Digits -/

/-- Whether digits are given with underscores only between two of them. -/
def groupedDigits (isDigit : Char → Bool) : List Char → Bool
  | [] => false
  | [c] => isDigit c
  | c :: '_' :: rest => isDigit c && groupedDigits isDigit rest
  | c :: rest => isDigit c && groupedDigits isDigit rest

/-- Whether digits are those of a decimal integer: no zero in front of others. -/
def isDecimal (digits : List Char) : Bool :=
  groupedDigits Char.isDigit digits && (digits.head? != some '0' || digits.tail.isEmpty)

/-- The digits without the underscores between them. -/
def ungrouped (digits : List Char) : List Char := digits.filter (· != '_')

/-! ## Integers -/

/-- An integer in the 64-bit range. -/
def integerOf (radix : Nat) (negative : Bool) (digits : List Char) : Option Toml :=
  let magnitude := ungrouped digits
  let signed := if negative then '-' :: magnitude else magnitude
  (Digits.read Digits.signed64 radix signed).toOption.map fun n => .integer (Int64.ofInt n)

/-- An integer after the mark of its radix. -/
def markedInteger? (radix : Nat) (digits : List Char) : Option Toml :=
  if groupedDigits (fun c => (Digits.digit? radix c).isSome) digits then
    integerOf radix false digits
  else none

/-! ## Floats -/

/-- The parts of a float, as written. -/
structure FloatParts where
  whole : List Char
  /-- With the point in front. -/
  fraction : List Char
  /-- With the mark in front. -/
  exponent : List Char

namespace FloatParts

def ofChars (cs : List Char) : FloatParts :=
  let isMark (c : Char) := c == 'e' || c == 'E'
  let mantissa := cs.takeWhile (!isMark ·)
  { whole := mantissa.takeWhile (· != '.')
    fraction := mantissa.dropWhile (· != '.')
    exponent := cs.dropWhile (!isMark ·) }

/-- The digits of the exponent. -/
def exponentDigits (parts : FloatParts) : List Char :=
  match parts.exponent.tail with
  | '+' :: digits | '-' :: digits => digits
  | digits => digits

/-- Whether the parts are those of a float, which has a fraction or an exponent. -/
def isFloat (parts : FloatParts) : Bool :=
  isDecimal parts.whole && !(parts.fraction.isEmpty && parts.exponent.isEmpty) &&
    (parts.fraction.isEmpty || groupedDigits Char.isDigit parts.fraction.tail) &&
    (parts.exponent.isEmpty || groupedDigits Char.isDigit parts.exponentDigits)

/-- The power of ten, as far as it matters: no file has as many digits as the bound. -/
def power (parts : FloatParts) : Int :=
  let size : Nat := (ungrouped parts.exponentDigits).foldl
    (fun n c => min (n * 10 + (c.toNat - '0'.toNat)) 1000000000000) 0
  if parts.exponent.tail.head? = some '-' then -size else size

/-- The least number that is rounded to infinity: halfway from the greatest number of 53 binary
    digits and an exponent of 1023 to the next one. -/
def infinityBound : Nat := 0x3FFFFFFFFFFFFF <<< 970

/-- Whether one fraction, given by the digits after the point, is not less than another. -/
def fractionAtLeast : List Char → List Char → Bool
  | [], [] => true
  | [], b :: bs => b == '0' && fractionAtLeast [] bs
  | _ :: _, [] => true
  | a :: as, b :: bs => b < a || a == b && fractionAtLeast as bs

/-- Whether the number is too large to be finite. -/
def isInfinite (parts : FloatParts) : Bool :=
  let bound := Nat.toDigits 10 infinityBound
  let digits := ungrouped (parts.whole ++ parts.fraction.tail)
  let leading := digits.dropWhile (· == '0')
  let skipped : Int := digits.length - leading.length
  let point := (ungrouped parts.whole).length + parts.power - skipped
  !leading.isEmpty && (bound.length < point || point == bound.length && fractionAtLeast leading bound)

end FloatParts

/-! ## Scalars -/

/-- A decimal number with its sign taken off.  Of numbers that are too large to be finite only the
    negative ones are accepted. -/
def unsignedNumber? (negative : Bool) (cs : List Char) : Option Toml :=
  if isDecimal cs then integerOf 10 negative cs
  else if String.ofList cs == "inf" || String.ofList cs == "nan" then some .float
  else
    let parts := FloatParts.ofChars cs
    if parts.isFloat && (negative || !parts.isInfinite) then some .float else none

/-- A number or truth value. -/
def plainScalar? (cs : List Char) : Option Toml :=
  match cs with
  | '0' :: 'x' :: digits => markedInteger? 16 digits
  | '0' :: 'o' :: digits => markedInteger? 8 digits
  | '0' :: 'b' :: digits => markedInteger? 2 digits
  | '+' :: rest => unsignedNumber? false rest
  | '-' :: rest => unsignedNumber? true rest
  | _ =>
    if String.ofList cs == "true" then some (.boolean true)
    else if String.ofList cs == "false" then some (.boolean false)
    else unsignedNumber? false cs

/-- Characters of numbers and truth values. -/
def isScalarChar (c : Char) : Bool := c.isAlphanum || c == '_' || c == '-' || c == '+' || c == '.'

/-! ## Dates -/

/-- A number of so many digits within bounds, as written. -/
def fixedDigits? (count low high : Nat) (cs : List Char) : Option (List Char × List Char) :=
  let digits := cs.take count
  let value := digits.foldl (fun n c => n * 10 + (c.toNat - '0'.toNat)) 0
  if digits.length = count ∧ digits.all Char.isDigit ∧ low ≤ value ∧ value ≤ high then
    some (digits, cs.drop count)
  else none

/-- A character that has to come next. -/
def mark? (c : Char) : List Char → Option (List Char)
  | d :: rest => if c = d then some rest else none
  | [] => none

/-- How many days a month has. -/
def daysOfMonth (year month : Nat) : Nat :=
  if month = 2 then
    if year % 4 = 0 ∧ (year % 100 ≠ 0 ∨ year % 400 = 0) then 29 else 28
  else if month = 4 ∨ month = 6 ∨ month = 9 ∨ month = 11 then 30
  else 31

/-- A day: year, month and day of the month. -/
def day? (cs : List Char) : Option (List Char × List Char) := do
  let number (digits : List Char) : Nat := (String.ofList digits).toNat?.getD 0
  let (year, rest) ← fixedDigits? 4 0 9999 cs
  let (month, rest) ← fixedDigits? 2 1 12 (← mark? '-' rest)
  let (day, rest) ← fixedDigits? 2 1 (daysOfMonth (number year) (number month)) (← mark? '-' rest)
  return (year ++ '-' :: month ++ '-' :: day, rest)

/-- The fraction of a second, down to the ninth place and without zeros at its end. -/
def secondFraction (digits : List Char) : List Char :=
  match ((digits.take 9).reverse.dropWhile (· == '0')).reverse with
  | [] => []
  | kept => '.' :: kept

/-- A time of day. -/
def time? (cs : List Char) : Option (List Char × List Char) := do
  let (hour, rest) ← fixedDigits? 2 0 23 cs
  let (minute, rest) ← fixedDigits? 2 0 59 (← mark? ':' rest)
  let (second, rest) ← fixedDigits? 2 0 60 (← mark? ':' rest)
  let clock := hour ++ ':' :: minute ++ ':' :: second
  match rest with
  | '.' :: digits =>
    let fraction := digits.takeWhile Char.isDigit
    if fraction.isEmpty then none
    else return (clock ++ secondFraction fraction, digits.dropWhile Char.isDigit)
  | _ => return (clock, rest)

/-- The distance from universal time, if it is given. -/
def zone? (cs : List Char) : Option (List Char × List Char) :=
  let distance (sign : Char) (rest : List Char) : Option (List Char × List Char) := do
    let (hour, rest) ← fixedDigits? 2 0 23 rest
    let (minute, rest) ← fixedDigits? 2 0 59 (← mark? ':' rest)
    let zero := (hour ++ minute).all (· == '0')
    return ((if zero then '+' else sign) :: hour ++ ':' :: minute, rest)
  match cs with
  | 'Z' :: rest | 'z' :: rest => some (['Z'], rest)
  | '+' :: rest => distance '+' rest
  | '-' :: rest => distance '-' rest
  | _ => some ([], cs)

/-- Whether a time of day starts here. -/
def startsTime (cs : List Char) : Bool :=
  (cs.take 2).all Char.isDigit && (cs.drop 2).head? == some ':'

/-- Whether a day starts here. -/
def startsDay (cs : List Char) : Bool :=
  (cs.take 4).all Char.isDigit && (cs.drop 4).head? == some '-'

/-- A day, with a time if one follows it after a `T` or a blank. -/
def date? (cs : List Char) : Option (Toml × List Char) := do
  let (day, rest) ← day? cs
  let isDivider (c : Char) := c == 'T' || c == 't' || c == ' '
  if rest.head?.any isDivider && startsTime rest.tail then
    let (clock, rest) ← time? rest.tail
    let (zone, rest) ← zone? rest
    return (.moment (String.ofList (day ++ 'T' :: clock ++ zone)), rest)
  else return (.moment (String.ofList day), rest)

/-- A number, truth value, date or time of day. -/
def scalar? (cs : List Char) : Option (Toml × List Char) :=
  if startsDay cs then date? cs
  else if startsTime cs then
    (time? cs).map fun (clock, rest) => (.moment (String.ofList clock), rest)
  else (plainScalar? (cs.takeWhile isScalarChar)).map (·, cs.dropWhile isScalarChar)

end CartScript.Toml
