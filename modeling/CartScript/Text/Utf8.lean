/-!
# UTF-8

Conversion between text and bytes.  A byte sequence is read one *unit* at a time: a unit is a
well-formed character, or a maximal ill-formed part, which is the longest start of the bytes that
could still have become a character (at least one byte).

* `encode` gives the bytes of a text,
* `decode?` reads bytes that are well-formed throughout,
* `decodeLossy` reads any bytes, with one replacement character for each ill-formed part.
-/

namespace CartScript.Utf8

/-- The bytes of a text. -/
def encode (s : String) : List UInt8 := s.toList.flatMap String.utf8EncodeChar

/-- What the first byte of a character asks for: its own payload, the number of bytes that follow,
    and the bounds of the next one. -/
structure Lead where
  payload : Nat
  following : Nat
  least : UInt8 := 0x80
  greatest : UInt8 := 0xBF

/-- The lead bytes of well-formed characters.  The bounds exclude overlong forms, surrogates and
    numbers past the last code point. -/
def lead? (b : UInt8) : Option Lead :=
  if b < 0x80 then some ⟨b.toNat, 0, 0x80, 0xBF⟩
  else if b < 0xC2 then none
  else if b < 0xE0 then some ⟨b.toNat - 0xC0, 1, 0x80, 0xBF⟩
  else if b = 0xE0 then some ⟨0, 2, 0xA0, 0xBF⟩
  else if b = 0xED then some ⟨0xD, 2, 0x80, 0x9F⟩
  else if b < 0xF0 then some ⟨b.toNat - 0xE0, 2, 0x80, 0xBF⟩
  else if b = 0xF0 then some ⟨0, 3, 0x90, 0xBF⟩
  else if b < 0xF4 then some ⟨b.toNat - 0xF0, 3, 0x80, 0xBF⟩
  else if b = 0xF4 then some ⟨4, 3, 0x80, 0x8F⟩
  else none

/-- A unit at the start of some bytes: the character, if it is well formed, and the bytes after it. -/
structure Piece where
  char? : Option Char
  rest : List UInt8

/-- Reads the bytes that follow a lead byte. -/
def follow : (following : Nat) → (least greatest : UInt8) → (payload : Nat) → List UInt8 → Piece
  | 0, _, _, payload, rest => ⟨some (Char.ofNat payload), rest⟩
  | _ + 1, _, _, _, [] => ⟨none, []⟩
  | n + 1, least, greatest, payload, b :: rest =>
    if least ≤ b ∧ b ≤ greatest then
      follow n 0x80 0xBF (payload * 0x40 + (b.toNat - 0x80)) rest
    else ⟨none, b :: rest⟩

/-- The unit that starts with the byte `b`. -/
def unit (b : UInt8) (rest : List UInt8) : Piece :=
  match lead? b with
  | none => ⟨none, rest⟩
  | some lead => follow lead.following lead.least lead.greatest lead.payload rest

theorem length_follow_le (n : Nat) (least greatest : UInt8) (payload : Nat) (bytes : List UInt8) :
    (follow n least greatest payload bytes).rest.length ≤ bytes.length := by
  fun_induction follow n least greatest payload bytes <;> simp_all
  omega

theorem length_unit_le (b : UInt8) (rest : List UInt8) :
    (unit b rest).rest.length ≤ rest.length := by
  unfold unit
  split
  · simp
  · exact length_follow_le ..

/-- The characters of the bytes, `none` for each maximal ill-formed part. -/
def units : List UInt8 → List (Option Char)
  | [] => []
  | b :: rest => (unit b rest).char? :: units (unit b rest).rest
termination_by bytes => bytes.length
decreasing_by
  have := length_unit_le b rest
  simp only [List.length_cons]
  omega

/-- The text that well-formed bytes spell. -/
def decode? (bytes : List UInt8) : Option String :=
  ((units bytes).mapM id).map String.ofList

/-- The text of any bytes, with a replacement character for each maximal ill-formed part. -/
def decodeLossy (bytes : List UInt8) : String :=
  String.ofList ((units bytes).map fun c? => c?.getD '�')

end CartScript.Utf8
