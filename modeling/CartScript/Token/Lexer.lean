import CartScript.Text.Digits
import CartScript.Text.Utf8
import CartScript.Token

/-!
# From bytes to tokens

`lex` reads the token at the start of a text that does not start with a blank, and `gap` measures
the blanks before it.  Both say how many bytes they cover, also where they fail, so reading goes on
after a failure.  A failed token covers at least one byte.
-/

namespace CartScript

/-- Why no token could be read. -/
inductive LexFault where
  | unclosedComment
  | unknownDirective (word : String)
  | malformedNumber (digits : String) (fault : Digits.Fault)
  | invalidEscape
  | unclosedText
  | illFormedText
  | invalidCharacter
  | unexpectedByte (byte : UInt8)
  /-- A reference to a parameter inside an argument of the macro of this name. -/
  | nestedArgument (name : String)
  deriving Repr, DecidableEq

def LexFault.message : LexFault → String
  | .unclosedComment => "unterminated comment"
  | .unknownDirective word => s!"unrecognized directive \"#{word}\""
  | .malformedNumber digits fault => s!"malformed number \"{digits}\": {fault.message}"
  | .invalidEscape => "invalid escape"
  | .unclosedText => "unterminated string"
  | .illFormedText => "string is not valid UTF-8"
  | .invalidCharacter => "invalid character"
  | .unexpectedByte byte => "unexpected character 0x" ++ hexPadded 2 byte.toNat
  | .nestedArgument name => s!"in macro \"{name}\": nested argument reference"

namespace Lexer

open Ascii

/-! ## Blanks -/

/-- Blanks that may stand on their own between two tokens of a line. -/
def isSpace (b : UInt8) : Bool := b == space || b == tab || b == carriageReturn

/-- The size of the rest of a block comment with its closing mark, if it is closed. -/
def commentSize? : List UInt8 → Option Nat
  | [] => none
  | b :: rest =>
    if b = star ∧ rest.head? = some slash then some 2 else (commentSize? rest).map (· + 1)

/-- What stands at the start of a text, as far as blanks are concerned. -/
inductive Blank where
  | absent
  | closed (size : Nat)
  | unclosedComment
  deriving Repr, DecidableEq

/-- The blank that starts with a backslash: a line end that is passed over. -/
def continuation : List UInt8 → Blank
  | [] => .absent
  | b :: rest =>
    if b = lineFeed then .closed 2
    else if b = carriageReturn then
      if rest.head? = some lineFeed then .closed 3 else .closed 2
    else .absent

/-- The blank that starts with a slash: a comment up to the line end, which it leaves, or up to its
    closing mark. -/
def comment : List UInt8 → Blank
  | [] => .absent
  | b :: rest =>
    if b = slash then .closed (2 + (rest.takeWhile (· != lineFeed)).length)
    else if b = star then
      match commentSize? rest with
      | some size => .closed (2 + size)
      | none => .unclosedComment
    else .absent

/-- The blank at the start of a text: a run of spaces, a continued line end, or a comment. -/
def blank : List UInt8 → Blank
  | [] => .absent
  | b :: rest =>
    if isSpace b then .closed (1 + (rest.takeWhile isSpace).length)
    else if b = backslash then continuation rest
    else if b = slash then comment rest
    else .absent

theorem commentSize?_le {bytes : List UInt8} {size : Nat} (h : commentSize? bytes = some size) :
    size ≤ bytes.length := by
  fun_induction commentSize? bytes generalizing size with
  | case1 => simp at h
  | case2 b rest hb =>
    cases rest <;> simp_all
    omega
  | case3 b rest _ ih =>
    obtain ⟨n, hn, rfl⟩ := Option.map_eq_some_iff.1 h
    have := ih hn
    simp only [List.length_cons]; omega

theorem length_takeWhile_le (p : UInt8 → Bool) (bytes : List UInt8) :
    (bytes.takeWhile p).length ≤ bytes.length :=
  (List.takeWhile_sublist p).length_le

theorem continuation_size {bytes : List UInt8} {size : Nat} (h : continuation bytes = .closed size) :
    0 < size ∧ size ≤ bytes.length + 1 := by
  unfold continuation at h
  split at h
  · simp at h
  · next b rest =>
    cases rest <;> grind

theorem comment_size {bytes : List UInt8} {size : Nat} (h : comment bytes = .closed size) :
    0 < size ∧ size ≤ bytes.length + 1 := by
  unfold comment at h
  split at h
  · simp at h
  · next b rest =>
    have := length_takeWhile_le (· != lineFeed) rest
    split at h
    · grind
    · split at h
      · split at h
        · next hs => have := commentSize?_le hs; grind
        · simp at h
      · simp at h

/-- A blank covers at least one byte, and no more than there are. -/
theorem blank_size {bytes : List UInt8} {size : Nat} (h : blank bytes = .closed size) :
    0 < size ∧ size ≤ bytes.length := by
  unfold blank at h
  split at h
  · simp at h
  · next b rest =>
    have := length_takeWhile_le isSpace rest
    split at h
    · grind
    · split at h
      · have := continuation_size h; simp only [List.length_cons]; omega
      · split at h
        · have := comment_size h; simp only [List.length_cons]; omega
        · simp at h

/-- The blanks before a token: their size, and whether an unclosed comment follows them. -/
structure Gap where
  size : Nat
  unclosed : Bool
  deriving Repr, DecidableEq

/-- All blanks at the start of a text. -/
def gap (bytes : List UInt8) : Gap :=
  match _h : blank bytes with
  | .absent => ⟨0, false⟩
  | .unclosedComment => ⟨0, true⟩
  | .closed size =>
    let rest := gap (bytes.drop size)
    ⟨size + rest.size, rest.unclosed⟩
termination_by bytes.length
decreasing_by
  have := blank_size _h
  simp only [List.length_drop]
  omega

/-! ## Tokens -/

/-- What was read at the start of a text, and how many bytes it covers. -/
structure Lexeme (α : Type) where
  outcome : Except LexFault α
  size : Nat

/-- A name, a directive's word or the like: the bytes of a class at the start of a text. -/
def run (p : UInt8 → Bool) (bytes : List UInt8) : List UInt8 := bytes.takeWhile p

/-- The digits of a number and underscores among them; `skipped` bytes in front of them only name
    the radix. -/
def digits (radix skipped : Nat) (bytes : List UInt8) : Lexeme Token :=
  let covered := run continuesName (bytes.drop skipped)
  let text := (covered.filter (· != underscore)).map toChar
  let outcome := match Digits.read Digits.signed64 radix text with
    | .ok value => .ok (.number (Int64.ofInt value))
    | .error fault => .error (.malformedNumber (String.ofList text) fault)
  ⟨outcome, skipped + covered.length⟩

/-- The radix that the bytes after a leading zero name, if they name one. -/
def zeroRadix? : List UInt8 → Option Nat
  | [] => none
  | b :: _ =>
    if b = 0x78 ∨ b = 0x58 then some 16 else if b = 0x62 ∨ b = 0x42 then some 2 else none

/-- A number that starts with the byte `b`: hexadecimal after `$` or `0x`, binary after `0b`, else
    decimal. -/
def number (b : UInt8) (rest : List UInt8) : Lexeme Token :=
  if b = dollar then digits 16 1 (b :: rest)
  else match (if b = zero then zeroRadix? rest else none) with
    | some radix => digits radix 2 (b :: rest)
    | none => digits 10 0 (b :: rest)

/-- The bytes after a backslash, with the bytes that they stand for. -/
def escapes : List (UInt8 × UInt8) :=
  [(0x6E, 0x0A), (0x72, 0x0D), (0x74, 0x09), (0x5C, 0x5C), (0x22, 0x22), (0x27, 0x27), (0x30, 0x00)]

/-- The byte that an escape stands for, by the byte after the backslash. -/
def escape? (b : UInt8) : Option UInt8 := escapes.lookup b

/-- The bytes of a text literal after its opening quote.  The literal covers its closing quote, and
    where it fails not the byte at which it fails. -/
def textBytes : List UInt8 → Lexeme (List UInt8)
  | [] => ⟨.error .unclosedText, 0⟩
  | b :: rest =>
    if b = quote then ⟨.ok [], 1⟩
    else if b = lineFeed then ⟨.error .unclosedText, 0⟩
    else if b = backslash then
      match rest with
      | [] => ⟨.error .invalidEscape, 1⟩
      | e :: rest =>
        match escape? e with
        | none => ⟨.error .invalidEscape, 1⟩
        | some c =>
          let tail := textBytes rest
          ⟨tail.outcome.map (c :: ·), tail.size + 2⟩
    else
      let tail := textBytes rest
      ⟨tail.outcome.map (b :: ·), tail.size + 1⟩

/-- A text literal after its opening quote. -/
def text (bytes : List UInt8) : Lexeme Token :=
  let lexeme := textBytes bytes
  let outcome := match lexeme.outcome with
    | .error fault => .error fault
    | .ok content =>
      match Utf8.decode? content with
      | some s => .ok (.text s)
      | none => .error .illFormedText
  ⟨outcome, lexeme.size⟩

/-- The closing mark of a character literal of the given value, after `covered` bytes. -/
def closeCharacter (value : UInt8) (covered : Nat) (rest : List UInt8) : Lexeme Token :=
  if rest.head? = some apostrophe then
    ⟨.ok (.number (Int64.ofInt value.toNat)), covered + 1⟩
  else ⟨.error .invalidCharacter, covered⟩

/-- A character literal after its opening mark.  Its value is the number of the byte. -/
def character : List UInt8 → Lexeme Token
  | [] => ⟨.error .invalidCharacter, 0⟩
  | b :: rest =>
    if b = backslash then
      match rest with
      | [] => ⟨.error .invalidEscape, 1⟩
      | e :: rest =>
        match escape? e with
        | none => ⟨.error .invalidEscape, 1⟩
        | some c => closeCharacter c 2 rest
    else closeCharacter b 1 rest

/-- A directive after its `#`.  Its word may be written in any letter case. -/
def directive (bytes : List UInt8) : Lexeme Token :=
  let covered := run isLetterOrDigit bytes
  let word := toText (covered.map toLower)
  let outcome := match Directive.ofWord? word with
    | some d => .ok (.directive d)
    | none => .error (.unknownDirective word)
  ⟨outcome, covered.length⟩

/-- A name. -/
def name (bytes : List UInt8) : Lexeme Token :=
  let covered := run continuesName bytes
  ⟨.ok (.name (toText covered)), covered.length⟩

/-- A symbol that starts with the byte `b`. -/
def symbol (b : UInt8) (rest : List UInt8) : Lexeme Token :=
  match rest.head?.bind (Symbol.ofPair? b) with
  | some s => ⟨.ok (.symbol s), 2⟩
  | none =>
    if isGraphic b then ⟨.ok (.symbol (Symbol.ofByte b)), 1⟩
    else ⟨.error (.unexpectedByte b), 1⟩

/-- The lexeme with `n` more bytes in front. -/
def Lexeme.grow (lexeme : Lexeme Token) (n : Nat) : Lexeme Token :=
  { lexeme with size := n + lexeme.size }

/-- The token at the start of a text that does not start with a blank. -/
def lex : List UInt8 → Lexeme Token
  | [] => ⟨.ok .fileEnd, 0⟩
  | b :: rest =>
    if b == lineFeed || b == semicolon then ⟨.ok .lineEnd, 1⟩
    else if b == hash then (directive rest).grow 1
    else if isDigit b || b == dollar then number b rest
    else if b == quote then (text rest).grow 1
    else if b == apostrophe then (character rest).grow 1
    else if startsName b then name (b :: rest)
    else symbol b rest

/-! ### Progress -/

theorem continuesName_of_startsName {b : UInt8} (h : startsName b = true) : continuesName b = true := by
  simp_all only [startsName, continuesName, isLetterOrDigit, Bool.or_eq_true]
  grind

theorem continuesName_of_isDigit {b : UInt8} (h : isDigit b = true) : continuesName b = true := by
  simp_all [continuesName, isLetterOrDigit]

theorem run_size_pos {p : UInt8 → Bool} {b : UInt8} (rest : List UInt8) (h : p b = true) :
    0 < (run p (b :: rest)).length := by
  simp [run, h]

theorem number_size_pos {b : UInt8} (rest : List UInt8) (h : (isDigit b || b == dollar) = true) :
    0 < (number b rest).size := by
  unfold number
  split
  · simp only [digits]; omega
  · rename_i hb
    have hd : isDigit b = true := by simpa [hb] using h
    split
    · simp only [digits]; omega
    · simpa [digits] using run_size_pos rest (continuesName_of_isDigit hd)

theorem symbol_size_pos (b : UInt8) (rest : List UInt8) : 0 < (symbol b rest).size := by
  unfold symbol
  split
  · simp
  · split <;> simp

/-- A token covers at least a byte, the end of the text apart. -/
theorem lex_size_pos (b : UInt8) (rest : List UInt8) : 0 < (lex (b :: rest)).size := by
  rw [lex]
  split
  · simp
  · split
    · simp only [Lexeme.grow]; omega
    · split
      · exact number_size_pos rest (by assumption)
      · split
        · simp only [Lexeme.grow]; omega
        · split
          · simp only [Lexeme.grow]; omega
          · split
            · exact run_size_pos rest (continuesName_of_startsName (by assumption))
            · exact symbol_size_pos b rest

/-- An unclosed comment has bytes. -/
theorem gap_nil : gap [] = ⟨0, false⟩ := by
  rw [gap]
  rfl

end Lexer

end CartScript
