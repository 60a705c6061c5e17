import CartScript.Position
import CartScript.Token.Lexer

/-!
# Reading a text token by token

A `TextStream` is a text that is being read.  `peek` looks at the next token and keeps it until
`eat`; a failed `peek` keeps nothing and has moved past the bytes that failed.  A token carries its text.
What a failed one has gathered of a text is not kept: no text is asked for between it and the next `eat`.
-/

namespace CartScript

/-- What comes next in a script: a token, or a fault in place of one. -/
abbrev Reading := Except LexFault Token

namespace Reading

/-- Whether it is a certain token. -/
def isToken (token : Token) : Reading → Bool
  | .ok found => found = token
  | .error _ => false

@[simp]
theorem isToken_iff (token : Token) (r : Reading) : isToken token r = true ↔ r = .ok token := by
  cases r <;> simp [isToken]

end Reading

/-- A text that is being read. -/
structure TextStream where
  file : String
  /-- The bytes that no token covers yet. -/
  rest : List UInt8
  /-- Where the first of them stands. -/
  place : Place := {}
  /-- Where the token looked at last starts. -/
  start : Place := {}
  /-- The token looked at and not eaten yet. -/
  held : Option Token := none
  deriving Repr, DecidableEq, Inhabited

namespace TextStream

/-- A text from its start. -/
def ofBytes (file : String) (bytes : List UInt8) : TextStream := { file, rest := bytes }

/-- The position of the token looked at last. -/
def position (s : TextStream) : Position := s.start.inFile s.file

/-- Reads the next token from the unread bytes. -/
def advance (s : TextStream) : Reading × TextStream :=
  let gap := Lexer.gap s.rest
  let start := s.place.steps (s.rest.take gap.size)
  let bytes := s.rest.drop gap.size
  if gap.unclosed then
    (.error .unclosedComment, { s with rest := [], place := start.steps bytes, start, held := none })
  else
    let lexeme := Lexer.lex bytes
    (lexeme.outcome,
      { s with
        rest := bytes.drop lexeme.size
        place := start.steps (bytes.take lexeme.size)
        start
        held := lexeme.outcome.toOption })

/-- The next token. -/
def peek (s : TextStream) : Reading × TextStream :=
  match s.held with
  | some token => (.ok token, s)
  | none => s.advance

/-- Drops the token looked at. -/
def eat (s : TextStream) : TextStream := { s with held := none }

/-- How much of the stream is left: the unread bytes and the token looked at, unless that is the end
    of the text. -/
def remaining (s : TextStream) : Nat :=
  s.rest.length + if s.held.all (· = .fileEnd) then 0 else 1

theorem remaining_advance (s : TextStream) :
    s.advance.2.rest.length < s.rest.length ∨
      s.advance.2.rest = [] ∧ s.advance.1 = .ok .fileEnd ∧ s.advance.2.held = some .fileEnd := by
  by_cases h : (Lexer.gap s.rest).unclosed = true
  · have hne : s.rest ≠ [] := by
      intro hr
      simp [hr, Lexer.gap_nil] at h
    left
    simpa [advance, h] using List.length_pos_iff.2 hne
  · cases hb : s.rest.drop (Lexer.gap s.rest).size with
    | nil => right; simp [advance, h, hb, Lexer.lex, Except.toOption]
    | cons b rest =>
      left
      have hpos := Lexer.lex_size_pos b rest
      have hlen := congrArg List.length hb
      rw [List.length_drop, List.length_cons] at hlen
      simp only [advance, h, hb, Bool.false_eq_true, if_false, List.length_drop, List.length_cons]
      omega

/-- Looking at a token leaves no more than there was. -/
theorem remaining_peek_le (s : TextStream) : s.peek.2.remaining ≤ s.remaining := by
  unfold peek
  split
  · simp
  · rename_i h
    rcases remaining_advance s with hlt | ⟨hr, _, hh⟩
    · have : s.advance.2.remaining ≤ s.advance.2.rest.length + 1 := by
        simp only [remaining]; split <;> omega
      simp only [remaining, h] at this ⊢
      simp only [Option.all_none, if_true]
      split <;> omega
    · simp [remaining, hr, hh]

/-- Dropping what was looked at leaves less than there was, unless it was the end of the text. -/
theorem remaining_eat_lt (s : TextStream) (h : s.peek.1 ≠ .ok .fileEnd) :
    s.peek.2.eat.remaining < s.remaining := by
  unfold peek at h ⊢
  split
  · rename_i token ht
    have : token ≠ .fileEnd := by simpa [ht] using h
    simp [eat, remaining, ht, this]
  · rename_i hn
    simp only [hn] at h
    rcases remaining_advance s with hlt | ⟨_, he, _⟩
    · simp only [eat, remaining, hn, Option.all_none, if_true]
      omega
    · exact absurd he h

/-- One round of looking at the next token and dropping it. -/
structure Round where
  outcome : Reading
  position : Position

/-- Looks at tokens and drops them until the end of the text, at most `limit` times. -/
def roundsWithin : (limit : Nat) → TextStream → List Round
  | 0, _ => []
  | limit + 1, s =>
    let (outcome, s) := s.peek
    let round := ⟨outcome, s.position⟩
    match outcome with
    | .ok .fileEnd => [round]
    | _ => round :: roundsWithin limit s.eat

/-- All rounds of a text.  Every round but the last covers a byte, so there are no more than the
    text has bytes and one. -/
def rounds (s : TextStream) : List Round := roundsWithin (s.remaining + 1) s

end TextStream

end CartScript
