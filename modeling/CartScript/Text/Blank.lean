/-!
# Blank characters and pieces of text

Trimming and splitting of text given as a list of characters.  A character is *blank* when it has
the Unicode property `White_Space`.

* `trim` drops the blanks at both ends,
* `splitBy` cuts at every character of a class and keeps empty pieces,
* `words` are the maximal pieces without blanks,
* `lines` are the pieces between line feeds, each without its line ending.
-/

namespace CartScript.Text

/-- Characters with the Unicode property `White_Space`. -/
def isBlank (c : Char) : Bool :=
  (9 ≤ c.toNat && c.toNat ≤ 13) || c.toNat == 0x20 || c.toNat == 0x85 || c.toNat == 0xA0 ||
    c.toNat == 0x1680 || (0x2000 ≤ c.toNat && c.toNat ≤ 0x200A) || c.toNat == 0x2028 ||
    c.toNat == 0x2029 || c.toNat == 0x202F || c.toNat == 0x205F || c.toNat == 0x3000

/-- The text without the blanks at its start. -/
def trimStart (cs : List Char) : List Char := cs.dropWhile isBlank

/-- The text without the blanks at its end. -/
def trimEnd (cs : List Char) : List Char := (cs.reverse.dropWhile isBlank).reverse

/-- The text without the blanks at both ends. -/
def trim (cs : List Char) : List Char := trimEnd (trimStart cs)

/-- Cuts the text at every character of the class `p`.  The pieces between the cuts are kept, empty
    ones too, so there is always one piece more than there are cuts. -/
def splitBy (p : Char → Bool) : List Char → List (List Char)
  | [] => [[]]
  | c :: cs =>
    if p c then [] :: splitBy p cs
    else match splitBy p cs with
      | [] => [[c]]
      | piece :: pieces => (c :: piece) :: pieces

/-- The maximal pieces of the text that hold no blank. -/
def words (cs : List Char) : List (List Char) :=
  (splitBy isBlank cs).filter (fun piece => !piece.isEmpty)

/-- Drops one carriage return at the end. -/
private def dropReturn (cs : List Char) : List Char :=
  if cs.getLast? = some '\r' then cs.dropLast else cs

/-- The lines of a text.  A line ends with a line feed, before which one carriage return belongs to
    the line ending; the last line may lack its ending, and then it is a line only if it is not
    empty. -/
def lines (cs : List Char) : List (List Char) :=
  let pieces := splitBy (· == '\n') cs
  pieces.dropLast.map dropReturn ++ (pieces.getLast?.toList.filter fun piece => !piece.isEmpty)

/-- The text after the given start, if it starts so. -/
def after? (start cs : List Char) : Option (List Char) :=
  if start.isPrefixOf cs then some (cs.drop start.length) else none

/-- Cuts the text at the first character `sep`, which belongs to neither part. -/
def cut? (sep : Char) (cs : List Char) : Option (List Char × List Char) :=
  match cs.dropWhile (· != sep) with
  | [] => none
  | _ :: rest => some (cs.takeWhile (· != sep), rest)

end CartScript.Text
