import CartScript.Proofs.Token.Joined

/-!
# Text before other text

Text that stops with the end of a line is read as it is read alone, whatever follows it: `Tells` says
which tokens it still has, and each look at the next one, and each drop of it, leaves the same with
the other text behind it.
-/

namespace CartScript.TextStream

open Lexer Ascii

/-! ## Other text behind -/

/-- The tokens that are left in a text, up to the end of its last line, and where it ends. -/
inductive Tells (file : String) (finish : Place) : TextStream → List Token → Prop
  | finished (start : Place) : Tells file finish ⟨file, [], finish, start, none⟩ []
  | next {s : TextStream} {token : Token} {tokens : List Token} (hread : s.peek.1 = .ok token)
      (htoken : token ≠ .fileEnd) (hmore : s.peek.2.rest ≠ [] ∨ token = .lineEnd)
      (hnext : Tells file finish s.peek.2.eat tokens) : Tells file finish s (token :: tokens)

/-- Whole lines tell their tokens, wherever they stand. -/
theorem tells_of_tokensWithin? {limit : Nat} {s : TextStream} {tokens : List Token}
    (hheld : s.held = none) (h : tokensWithin? limit s.rest = some tokens) :
    Tells s.file (s.place.steps s.rest) s tokens := by
  induction limit generalizing s tokens with
  | zero => simp [tokensWithin?] at h
  | succ limit ih =>
    have hpeek : s.peek = s.advance := by rw [peek, hheld]
    cases hrest : s.rest with
    | nil =>
      rw [hrest] at h
      obtain rfl := Option.some.inj h
      obtain ⟨file, rest, place, start, held⟩ := s
      obtain rfl : held = none := hheld
      obtain rfl : rest = [] := hrest
      exact .finished start
    | cons b bytes =>
      obtain ⟨houtcome, hnext, _⟩ := advance_moved (s := ofBytes "" (b :: bytes)) hrest.symm
      rw [hrest] at h
      simp only [tokensWithin?] at h
      rw [houtcome, hnext] at h
      split at h
      · rename_i token htoken
        split at h
        · simp at h
        · rename_i hlast
          obtain ⟨tail, htail, rfl⟩ := Option.map_eq_some_iff.1 h
          obtain ⟨covered, hcovered, hplace⟩ := advance_covers s
          have hmore := ih (s := s.advance.2.eat) rfl htail
          rw [show s.advance.2.eat.file = s.file from file_advance s,
            show s.advance.2.eat.place = s.place.steps covered from hplace,
            show s.advance.2.eat.rest = s.advance.2.rest from rfl, ← Place.steps_append, ← hcovered,
            hrest] at hmore
          refine .next (by rw [hpeek, htoken]) ?_ ?_ (by rwa [hpeek])
          · rintro rfl
            exact hlast ⟨rest_of_fileEnd htoken, by simp⟩
          · rw [hpeek]
            by_cases hempty : s.advance.2.rest = []
            · exact .inr (Decidable.of_not_not fun hne => hlast ⟨hempty, hne⟩)
            · exact .inl hempty
      · simp at h

/-- More text behind what is left. -/
def before (s : TextStream) (more : List UInt8) : TextStream := { s with rest := s.rest ++ more }

variable {file : String} {finish : Place} {s : TextStream} {token : Token} {tokens : List Token}

namespace Tells

theorem first (h : Tells file finish s (token :: tokens)) : s.peek.1 = .ok token := by
  cases h with
  | next hread _ _ _ => exact hread

theorem eat (h : Tells file finish s (token :: tokens)) : Tells file finish s.peek.2.eat tokens := by
  cases h with
  | next _ _ _ hnext => exact hnext

/-- Only the end of a line is last. -/
theorem ne_nil (h : Tells file finish s (token :: tokens)) (htoken : token ≠ .lineEnd) :
    tokens ≠ [] := by
  rintro rfl
  cases h with
  | next _ _ hmore hnext =>
    generalize hs : s.peek.2.eat = next at hnext
    cases hnext with
    | finished start => exact hmore.elim (fun hne => hne (congrArg TextStream.rest hs)) htoken

theorem peek (h : Tells file finish s (token :: tokens)) :
    Tells file finish s.peek.2 (token :: tokens) := by
  cases h with
  | next hread htoken hmore hnext =>
    have hagain : s.peek.2.peek = (.ok token, s.peek.2) := peek_of_held (by rw [held_peek, hread]; rfl)
    exact .next (by rw [hagain]) htoken (by rw [hagain]; exact hmore) (by rw [hagain]; exact hnext)

end Tells

/-- The next token is the same with other text behind it. -/
theorem peek_before (h : Tells file finish s (token :: tokens)) (more : List UInt8) :
    (s.before more).peek = (.ok token, s.peek.2.before more) := by
  cases h with
  | next hread htoken hmore _ =>
    cases hheld : s.held with
    | some held =>
      have hheld' : (s.before more).held = some held := hheld
      rw [peek_of_held hheld] at hread ⊢
      rw [peek_of_held hheld', ← Except.ok.inj hread]
    | none =>
      have hpeek : s.peek = s.advance := by rw [TextStream.peek, hheld]
      have hheld' : (s.before more).held = none := hheld
      rw [hpeek] at hread hmore ⊢
      rw [TextStream.peek, hheld']
      exact advance_append hread htoken hmore more

/-- The rounds of a text with other text behind it are its own, and then those of the other text. -/
theorem Tells.ahead (h : Tells file finish s tokens) (more : List UInt8) :
    (s.before more).ahead = s.ahead ++ (⟨file, more, finish, {}, none⟩ : TextStream).ahead ∧
      s.ahead.map Round.outcome = tokens.map .ok ∧ (tokens ≠ [] → tokens.getLast? = some .lineEnd) := by
  induction h with
  | finished start =>
    have hend : (⟨file, [], finish, start, none⟩ : TextStream).peek.1 = .ok .fileEnd := by
      simp [TextStream.peek, advance, gap_nil, lex]
    rw [ahead_of_fileEnd hend]
    exact ⟨ahead_congr rfl rfl rfl rfl rfl, rfl, fun hne => absurd rfl hne⟩
  | @next s token tokens hread htoken hmore hnext ih =>
    have hpeek := peek_before (.next hread htoken hmore hnext) more
    obtain ⟨hahead, houtcomes, hlast⟩ := ih
    have hfirst : s.ahead = ⟨.ok token, s.peek.2.position⟩ :: s.peek.2.eat.ahead := by
      rw [ahead_of_ne (by rw [hread]; simpa using htoken), hread]
    have hlonger : (s.before more).ahead =
        ⟨.ok token, s.peek.2.position⟩ :: (s.peek.2.eat.before more).ahead := by
      rw [ahead_of_ne (by rw [hpeek]; simpa using htoken), hpeek]
      rfl
    rw [hfirst, hlonger]
    refine ⟨congrArg _ hahead, congrArg _ houtcomes, fun _ => ?_⟩
    cases tokens with
    | nil =>
      by_contra hne
      exact Tells.ne_nil (.next hread htoken hmore hnext) (by simpa using hne) rfl
    | cons next tokens => exact hlast (by simp)

end CartScript.TextStream
