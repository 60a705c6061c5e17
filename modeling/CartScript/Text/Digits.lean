/-!
# Integers as digits

Reading and writing of integers in a radix from 2 to 16.

* `Digits.read` reads a signed integer within given bounds and says what is wrong with a text that
  is none,
* `Digits.write` writes a natural number with upper-case digits and without leading zeros,
* `hex` and `hexPadded` write the hexadecimal numbers of messages and listings.
-/

namespace CartScript.Digits

/-- Why a text is no integer within the bounds. -/
inductive Fault where
  | empty
  | invalidDigit
  | tooLarge
  | tooSmall
  deriving Repr, DecidableEq

def Fault.message : Fault → String
  | .empty => "cannot parse integer from empty string"
  | .invalidDigit => "invalid digit found in string"
  | .tooLarge => "number too large to fit in target type"
  | .tooSmall => "number too small to fit in target type"

/-- The value of a digit in the given radix; letters count in either case. -/
def digit? (radix : Nat) (c : Char) : Option Nat :=
  let value? :=
    if '0' ≤ c ∧ c ≤ '9' then some (c.toNat - '0'.toNat)
    else if 'a' ≤ c ∧ c ≤ 'z' then some (c.toNat - 'a'.toNat + 10)
    else if 'A' ≤ c ∧ c ≤ 'Z' then some (c.toNat - 'A'.toNat + 10)
    else none
  value?.filter (· < radix)

/-- The bounds of a type of integers, both included. -/
structure Bounds where
  least : Int
  greatest : Int

/-- The bounds of 64-bit signed integers. -/
def signed64 : Bounds := ⟨-0x8000000000000000, 0x7FFFFFFFFFFFFFFF⟩

/-- The bounds of 64-bit unsigned integers. -/
def unsigned64 : Bounds := ⟨0, 0xFFFFFFFFFFFFFFFF⟩

/-- Appends digits to the magnitude read so far, the leading digit first.  The value is checked
    against the bound after every digit, so of two faults the one further left is reported. -/
def readUpwards (bounds : Bounds) (radix : Nat) : Int → List Char → Except Fault Int
  | value, [] => .ok value
  | value, c :: cs =>
    match digit? radix c with
    | none => .error .invalidDigit
    | some d =>
      let next := value * radix + d
      if next ≤ bounds.greatest then readUpwards bounds radix next cs else .error .tooLarge

/-- Like `readUpwards`, for the digits after a minus sign. -/
def readDownwards (bounds : Bounds) (radix : Nat) : Int → List Char → Except Fault Int
  | value, [] => .ok value
  | value, c :: cs =>
    match digit? radix c with
    | none => .error .invalidDigit
    | some d =>
      let next := value * radix - d
      if bounds.least ≤ next then readDownwards bounds radix next cs else .error .tooSmall

/-- Reads an integer: an optional sign and at least one digit.  A minus sign is one only where the
    bounds allow negative numbers. -/
def read (bounds : Bounds) (radix : Nat) : List Char → Except Fault Int
  | [] => .error .empty
  | '+' :: [] => .error .invalidDigit
  | '+' :: cs => readUpwards bounds radix 0 cs
  | '-' :: [] => .error .invalidDigit
  | '-' :: cs =>
    if bounds.least < 0 then readDownwards bounds radix 0 cs else .error .invalidDigit
  | cs => readUpwards bounds radix 0 cs

/-- The digits of a number, the leading one first, upper case. -/
def write (radix n : Nat) : List Char := (Nat.toDigits radix n).map Char.toUpper

end CartScript.Digits

namespace CartScript

/-- Upper-case hexadecimal digits without padding. -/
def hex (n : Nat) : String := String.ofList (Digits.write 16 n)

/-- Upper-case hexadecimal digits, filled up with zeros to the given width. -/
def hexPadded (width n : Nat) : String :=
  let digits := Digits.write 16 n
  String.ofList (List.replicate (width - digits.length) '0' ++ digits)

end CartScript
