import Mathlib.Data.List.Induction
import Mathlib.Logic.Function.Iterate
import CartScript.Proofs.Token.Newlines

/-!
# Reading gets on

A round looks at the next token and drops it.  It passes over blanks and reads a token or bytes that
fail, at least one byte before the end of the text, so a text has at most as many rounds as bytes and
one.  Where the rounds read is told by offsets in the text, and so is the place that each reports.
-/

namespace CartScript

open Lexer Ascii

/-- The place behind some bytes is told by the newlines in them and the bytes since the last. -/
theorem Place.steps_default (bytes : List UInt8) :
    ({} : Place).steps bytes =
      ⟨1 + bytes.count lineFeed, 1 + (bytes.reverse.takeWhile (· != lineFeed)).length⟩ := by
  induction bytes using List.reverseRecOn with
  | nil => rfl
  | append_singleton bytes b ih =>
    rw [steps_append, ih, List.reverse_concat, List.count_append, List.takeWhile_cons]
    show step _ b = _
    by_cases hb : b = lineFeed
    · simp [step, hb, lineFeed, Nat.add_assoc]
    · simp [step, hb, Nat.add_comm]

namespace TextStream

/-- What the next round reads, and where. -/
def look (s : TextStream) : Round := ⟨s.peek.1, s.peek.2.position⟩

/-- Looks at the next token and drops it. -/
def nextRound (s : TextStream) : TextStream := s.peek.2.eat

/-- The stream has read some bytes of a text and looks at no token. -/
structure HasRead (file : String) (text before : List UInt8) (s : TextStream) : Prop where
  file_eq : s.file = file
  held_eq : s.held = none
  text_eq : text = before ++ s.rest
  place_eq : s.place = ({} : Place).steps before

/-- A round that finds the text read up to `past`: it passes over blanks up to `first` and reads the
    bytes from there up to `next`. -/
structure Covers (file : String) (text : List UInt8) (s : TextStream) (past first next : Nat) :
    Prop where
  rest_eq : s.rest = text.drop past
  past_le : past ≤ first
  blanks : ∃ row, (text.drop past).take (first - past) = rowBytes row
  /-- The end of the text takes no byte; anything else does, also what fails. -/
  read : s.peek.1 = .ok .fileEnd ∧ first = text.length ∧ next = first ∨
    s.peek.1 ≠ .ok .fileEnd ∧ first < next
  next_le : next ≤ text.length
  rest_peek : s.peek.2.rest = text.drop next
  position_eq : s.peek.2.position =
    ⟨file, 1 + (text.take first).count lineFeed,
      1 + ((text.take first).reverse.takeWhile (· != lineFeed)).length⟩

namespace HasRead

variable {file : String} {text before : List UInt8} {s : TextStream}

/-- One round. -/
theorem covers (h : HasRead file text before s) :
    ∃ first after, Covers file text s before.length first after.length ∧
      HasRead file text after s.nextRound := by
  have hpeek : s.peek = s.advance := by rw [peek, h.held_eq]
  obtain ⟨row, bytes, hrest, hstart, hplace, hread⟩ := advance_parts s
  -- The text is what was read before, the blanks, what the round reads, and the rest.
  have htext : text = (before ++ rowBytes row) ++ bytes ++ s.advance.2.rest := by
    rw [h.text_eq, hrest, List.append_assoc, List.append_assoc]
  have hfirst : text.take (before ++ rowBytes row).length = before ++ rowBytes row := by
    rw [htext, List.append_assoc, List.take_left]
  have hplaces : s.advance.2.start = ({} : Place).steps (before ++ rowBytes row) := by
    rw [hstart, h.place_eq, Place.steps_append]
  refine ⟨(before ++ rowBytes row).length, before ++ rowBytes row ++ bytes,
    { rest_eq := ?_
      past_le := by simp
      blanks := ⟨row, ?_⟩
      read := ?_
      next_le := by simp [htext]
      rest_peek := ?_
      position_eq := ?_ },
    { file_eq := ?_
      held_eq := rfl
      text_eq := ?_
      place_eq := ?_ }⟩
  · rw [h.text_eq, List.drop_left]
  · rw [h.text_eq, List.drop_left, hrest, List.length_append, Nat.add_sub_cancel_left, List.take_left]
  · rw [hpeek]
    rcases hread with ⟨hend, rfl⟩ | ⟨hne, hbytes, -⟩
    · rw [rest_of_fileEnd hend, List.append_nil, List.append_nil] at htext
      exact .inl ⟨hend, by rw [htext], by rw [List.append_nil]⟩
    · have hpos := List.length_pos_iff.2 hbytes
      exact .inr ⟨hne, Nat.lt_of_lt_of_eq (Nat.lt_add_of_pos_right hpos) List.length_append.symm⟩
  · rw [hpeek, htext, List.drop_left]
  · rw [hpeek, position, hplaces, file_advance, h.file_eq, hfirst, Place.steps_default]
    rfl
  · rw [nextRound, hpeek, ← h.file_eq, ← file_advance s]
    rfl
  · rw [nextRound, hpeek]
    exact htext
  · rw [nextRound, hpeek, Place.steps_append, ← hplaces, ← hplace]
    rfl

/-- All rounds. -/
theorem iterate (file : String) (text : List UInt8) (i : Nat) :
    ∃ before, HasRead file text before (nextRound^[i] (ofBytes file text)) := by
  induction i with
  | zero => exact ⟨[], rfl, rfl, rfl, rfl⟩
  | succ i ih =>
    obtain ⟨before, hread⟩ := ih
    obtain ⟨first, after, -, hnext⟩ := hread.covers
    rw [Function.iterate_succ_apply']
    exact ⟨after, hnext⟩

end HasRead

/-- Behind the end of the text there is nothing else. -/
theorem fileEnd_iterate {s : TextStream} (hheld : s.held = none) (hend : s.peek.1 = .ok .fileEnd)
    (i : Nat) : (nextRound^[i] s).peek.1 = .ok .fileEnd := by
  induction i generalizing s with
  | zero => exact hend
  | succ i ih =>
    have hpeek : s.peek = s.advance := by rw [peek, hheld]
    have hrest : s.nextRound.rest = [] := by
      rw [nextRound, hpeek]
      exact rest_of_fileEnd (hpeek ▸ hend)
    refine ih rfl ?_
    rcases remaining_advance s.nextRound with hless | ⟨-, hend', -⟩
    · simp [hrest] at hless
    · exact hend'

/-- The end of the text is read in some round, and from then on in every round. -/
theorem exists_last {s : TextStream} (hheld : s.held = none) :
    ∃ last ≤ s.rest.length, ∀ i, (nextRound^[i] s).peek.1 = .ok .fileEnd ↔ last ≤ i := by
  by_cases hend : s.peek.1 = .ok .fileEnd
  · exact ⟨0, Nat.zero_le _, fun i => iff_of_true (fileEnd_iterate hheld hend i) (Nat.zero_le _)⟩
  · have hpeek : s.peek = s.advance := by rw [peek, hheld]
    have hless : s.nextRound.rest.length < s.rest.length := by
      rcases remaining_advance s with hless | ⟨-, hend', -⟩
      · rw [nextRound, hpeek]
        exact hless
      · exact absurd (hpeek ▸ hend') hend
    obtain ⟨last, hlast, hrounds⟩ := exists_last (s := s.nextRound) rfl
    refine ⟨last + 1, by omega, fun i => ?_⟩
    cases i with
    | zero => exact iff_of_false hend (by omega)
    | succ i => rw [Function.iterate_succ_apply, hrounds, Nat.add_le_add_iff_right]
termination_by s.rest.length

/-- The rounds up to the end of the text. -/
theorem roundsWithin_eq {last limit : Nat} {s : TextStream}
    (hlast : ∀ i, (nextRound^[i] s).peek.1 = .ok .fileEnd ↔ last ≤ i) (hlimit : last < limit) :
    s.roundsWithin limit = (List.range (last + 1)).map fun i => (nextRound^[i] s).look := by
  induction limit generalizing last s with
  | zero => omega
  | succ limit ih =>
    rw [roundsWithin, List.range_succ_eq_map, List.map_cons, List.map_map]
    dsimp only
    cases last with
    | zero =>
      have hend : s.peek.1 = .ok .fileEnd := (hlast 0).2 (Nat.zero_le _)
      simp [hend, look]
    | succ last =>
      have hne : s.peek.1 ≠ .ok .fileEnd := fun hend => by simpa using (hlast 0).1 hend
      have hnext (i : Nat) : (nextRound^[i] s.nextRound).peek.1 = .ok .fileEnd ↔ last ≤ i := by
        rw [← Function.iterate_succ_apply, hlast, Nat.add_le_add_iff_right]
      split
      · rename_i hend
        exact absurd hend hne
      · rw [show s.peek.2.eat = s.nextRound from rfl, ih hnext (by omega)]
        rfl

/-- Reading a text gets on and knows where it is.  The end of the text is read within as many rounds as
    the text has bytes and one, whether rounds fail or not, and nothing else is read from then on.
    Round `i` passes over blanks from `ends i` to `starts i` and reads up to `ends (i + 1)`, at least
    one byte before the end; it is reported at the line and the column of its first byte. -/
theorem rounds_progress (file : String) (text : List UInt8) :
    ∃ last ≤ text.length, ∃ starts ends : Nat → Nat, ends 0 = 0 ∧
      (ofBytes file text).rounds =
        (List.range (last + 1)).map (fun i => (nextRound^[i] (ofBytes file text)).look) ∧
      ∀ i, ((nextRound^[i] (ofBytes file text)).peek.1 = .ok .fileEnd ↔ last ≤ i) ∧
        Covers file text (nextRound^[i] (ofBytes file text)) (ends i) (starts i) (ends (i + 1)) := by
  obtain ⟨last, hlast, hrounds⟩ := exists_last (s := ofBytes file text) rfl
  choose before hread using HasRead.iterate file text
  have hcovers (i : Nat) : ∃ first, Covers file text (nextRound^[i] (ofBytes file text))
      (before i).length first (before (i + 1)).length := by
    obtain ⟨first, after, hcovers, hnext⟩ := (hread i).covers
    have hnext' := hread (i + 1)
    rw [Function.iterate_succ_apply'] at hnext'
    -- What is left tells how much was read.
    have hsame := congrArg List.length (hnext.text_eq.symm.trans hnext'.text_eq)
    rw [List.length_append, List.length_append, Nat.add_right_cancel_iff] at hsame
    exact ⟨first, hsame ▸ hcovers⟩
  choose starts hstarts using hcovers
  have hzero := congrArg List.length (hread 0).text_eq
  refine ⟨last, hlast, starts, fun i => (before i).length, ?_, ?_, fun i => ⟨hrounds i, hstarts i⟩⟩
  · simpa [ofBytes] using hzero
  · exact roundsWithin_eq hrounds (Nat.lt_succ_of_le (Nat.le_trans hlast (Nat.le_add_right ..)))

end TextStream

end CartScript
