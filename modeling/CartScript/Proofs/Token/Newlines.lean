import Mathlib.Algebra.Ring.Nat
import CartScript.Proofs.Token.Blanks

/-!
# Where the newlines of a text go

Reading takes a text apart into blanks and the words that the rounds read.  A newline ends a line
unless it stands in a block comment or in a continued line, or right after the opening mark of a
character: there it is taken for the character, whether the character is closed or not.
-/

namespace CartScript

namespace Lexer

open Ascii

/-! ## Parts -/

/-- A part of a text: a blank, or a word with what was read there. -/
inductive Part where
  | blank (passage : Passage)
  | word (bytes : List UInt8) (reading : Reading)

namespace Part

def bytes : Part → List UInt8
  | blank passage => passage.bytes
  | word bytes _ => bytes

/-- What a word has to do with newlines.  Blanks are what they are by themselves. -/
inductive Sound : Part → Prop
  | blank (passage : Passage) : Sound (blank passage)
  | lineFeed : Sound (word [lineFeed] (.ok .lineEnd))
  | semicolon : Sound (word [semicolon] (.ok .lineEnd))
  /-- A comment that is not closed is the rest of the text. -/
  | comment {body : List UInt8} (h : ¬ Closes body) :
      Sound (word (slash :: star :: body) (.error .unclosedComment))
  /-- A newline between the marks of a character. -/
  | character : Sound (word [apostrophe, Ascii.lineFeed, apostrophe] (.ok (.number 10)))
  /-- A newline in a character that is not closed. -/
  | openCharacter : Sound (word [apostrophe, Ascii.lineFeed] (.error .invalidCharacter))
  | plain {bytes : List UInt8} {reading : Reading} (h : Ascii.lineFeed ∉ bytes)
      (hreading : reading ≠ .ok .lineEnd) : Sound (word bytes reading)

end Part

/-! ## Words -/

theorem not_mem_run {p : UInt8 → Bool} (hp : p lineFeed = false) (bytes : List UInt8) :
    lineFeed ∉ bytes.take (run p bytes).length := by
  rw [run, take_takeWhile]
  intro hmem
  have hall := List.all_eq_true.1 (List.all_takeWhile (p := p) (l := bytes)) _ hmem
  rw [hp] at hall
  simp at hall

theorem not_mem_digits (radix skipped : Nat) {bytes : List UInt8}
    (h : lineFeed ∉ bytes.take skipped) :
    lineFeed ∉ bytes.take (digits radix skipped bytes).size := by
  rw [digits, List.take_add, List.mem_append, not_or]
  exact ⟨h, not_mem_run (by decide) _⟩

theorem not_mem_number {b : UInt8} (h : (isDigit b || b == dollar) = true) (rest : List UInt8) :
    lineFeed ∉ (b :: rest).take (number b rest).size := by
  have hb : lineFeed ≠ b := by
    rintro rfl
    revert h
    decide
  unfold number
  split
  · exact not_mem_digits 16 1 (by simpa using hb)
  · split
    · -- The letter of the radix is no newline.
      rename_i radix hradix
      refine not_mem_digits radix 2 ?_
      cases rest with
      | nil => simpa using hb
      | cons c rest =>
        have hc : lineFeed ≠ c := by
          rintro rfl
          have hnone : zeroRadix? (lineFeed :: rest) = none := rfl
          rw [hnone, ite_self] at hradix
          simp at hradix
        simpa using ⟨hb, hc⟩
    · exact not_mem_digits 10 0 (by simp)

theorem escape?_lineFeed : escape? lineFeed = none := by decide

theorem ne_of_escape? {e c : UInt8} (h : escape? e = some c) : lineFeed ≠ e := by
  rintro rfl
  rw [escape?_lineFeed] at h
  simp at h

theorem not_mem_textBytes (bytes : List UInt8) :
    lineFeed ∉ bytes.take (textBytes bytes).size := by
  induction bytes using textBytes.induct with
  | case1 => simp
  | case2 rest =>
    rw [textBytes.eq_def]
    exact fun hmem => absurd (List.mem_singleton.1 hmem) (by decide)
  | case3 rest hq =>
    rw [textBytes.eq_def]
    simp only [hq, if_false, if_true, List.take_zero, List.not_mem_nil, not_false_eq_true]
  | case4 hq hl => simpa [textBytes.eq_def [backslash], hq, hl] using Ne.symm hl
  | case5 e rest he hq hl =>
    rw [textBytes.eq_def]
    simpa [he, hq, hl] using Ne.symm hl
  | case6 e rest c he hq hl ih =>
    rw [textBytes.eq_def]
    simp only [hq, hl, he, if_true, if_false, List.take_succ_cons, List.mem_cons, not_or]
    exact ⟨Ne.symm hl, ne_of_escape? he, ih⟩
  | case7 b rest hq hl hb ih =>
    rw [textBytes.eq_def]
    simp only [hq, hl, hb, if_false, List.take_succ_cons, List.mem_cons, not_or]
    exact ⟨Ne.symm hl, ih⟩

/-- A character, and what it makes of a newline. -/
theorem character_lines (rest : List UInt8) :
    Part.Sound (.word ((apostrophe :: rest).take (1 + (character rest).size))
      (character rest).outcome) := by
  have hmark : lineFeed ≠ apostrophe := by decide
  have hbackslash : lineFeed ≠ backslash := by decide
  cases rest with
  | nil =>
    show Part.Sound (.word [apostrophe] (.error .invalidCharacter))
    exact .plain (by simpa using hmark) (by simp)
  | cons b rest =>
    unfold character
    dsimp only
    split
    · -- What follows a backslash is no newline, or it is left.
      rename_i hb
      subst hb
      cases rest with
      | nil => exact .plain (by simp [hmark, hbackslash]) (by simp)
      | cons e rest =>
        dsimp only
        split
        · exact .plain (by simp [hmark, hbackslash]) (by simp)
        · rename_i c he
          have hne := ne_of_escape? he
          rw [closeCharacter]
          split
          · rename_i hhead
            obtain ⟨rest, rfl⟩ := List.head?_eq_some_iff.1 hhead
            exact .plain (by simp [hmark, hbackslash, hne]) (by simp)
          · exact .plain (by simp [hmark, hbackslash, hne]) (by simp)
    · rw [closeCharacter]
      split
      · rename_i hhead
        obtain ⟨rest, rfl⟩ := List.head?_eq_some_iff.1 hhead
        by_cases hb : b = lineFeed
        · subst hb
          exact .character
        · exact .plain (by simp [hmark, Ne.symm hb]) (by simp)
      · by_cases hb : b = lineFeed
        · subst hb
          exact .openCharacter
        · exact .plain (by simp [hmark, Ne.symm hb]) (by simp)

theorem not_mem_symbol {b : UInt8} (hb : lineFeed ≠ b) (rest : List UInt8) :
    lineFeed ∉ (b :: rest).take (symbol b rest).size := by
  unfold symbol
  split
  · rename_i s hpair
    cases rest with
    | nil => simpa using hb
    | cons c rest =>
      -- No symbol of two bytes ends with a newline.
      have hnone : ∀ p ∈ Symbol.pairs, p.1.2 ≠ lineFeed := by decide
      have hc : lineFeed ≠ c := by
        rintro rfl
        have hnone : Symbol.ofPair? b lineFeed = none := List.lookup_eq_none_iff.2 fun p hp => by
          rw [bne_iff_ne]
          exact fun heq => hnone p hp (congrArg Prod.snd heq).symm
        simp [hnone] at hpair
      simpa using ⟨hb, hc⟩
  · split
    · simpa using hb
    · simpa using hb

/-- The newlines in a word. -/
theorem lex_lines (b : UInt8) (rest : List UInt8) :
    Part.Sound (.word ((b :: rest).take (lex (b :: rest)).size) (lex (b :: rest)).outcome) := by
  by_cases hline : (b == lineFeed || b == semicolon) = true
  · rw [lex, if_pos hline]
    rw [Bool.or_eq_true, beq_iff_eq, beq_iff_eq] at hline
    rcases hline with rfl | rfl
    · exact .lineFeed
    · exact .semicolon
  · have hreading := lex_ne_lineEnd hline rest
    have hb : lineFeed ≠ b := by
      rintro rfl
      exact hline (by decide)
    by_cases hmark : b = apostrophe
    · subst hmark
      exact character_lines rest
    · refine .plain ?_ hreading
      rw [lex, if_neg hline]
      split
      · rw [Lexeme.grow, Nat.add_comm, List.take_succ_cons, List.mem_cons, not_or]
        exact ⟨hb, not_mem_run (by decide) _⟩
      · split
        · exact not_mem_number (by assumption) rest
        · split
          · rw [Lexeme.grow, Nat.add_comm, List.take_succ_cons, List.mem_cons, not_or]
            exact ⟨hb, not_mem_textBytes _⟩
          · rename_i hd hn hq
            rw [if_neg (by simpa using hmark)]
            split
            · exact not_mem_run (by decide) _
            · exact not_mem_symbol hb rest

/-! ## Counting -/

/-- The newlines that a blank passes over. -/
def Passage.newlines : Passage → Nat
  | .blockComment body _ => body.count lineFeed
  | .continued _ => 1
  | _ => 0

theorem Passage.count_bytes (p : Passage) : p.bytes.count lineFeed = p.newlines := by
  cases p with
  | space b h =>
    have hb : b ≠ lineFeed := by
      rintro rfl
      revert h
      decide
    simp [bytes, newlines, hb]
  | lineComment body h =>
    have hslash : slash ≠ lineFeed := by decide
    simp [bytes, newlines, hslash, List.count_eq_zero.2 h]
  | blockComment body h =>
    have hslash : slash ≠ lineFeed := by decide
    have hstar : Ascii.star ≠ lineFeed := by decide
    simp [bytes, newlines, hslash, hstar]
  | continued returned => cases returned <;> decide
  | returned => decide

namespace Part

/-- The ends of lines that are read in a part. -/
def lineEnds : Part → Nat
  | blank _ => 0
  | word _ reading => if reading.isToken .lineEnd then 1 else 0

/-- The newlines in a block comment or a continued line. -/
def hidden : Part → Nat
  | blank passage => passage.newlines
  | word bytes (.error .unclosedComment) => bytes.count lineFeed
  | word _ _ => 0

/-- The newlines that are taken for a character. -/
def taken : Part → Nat
  | word (b :: c :: _) _ => if b = apostrophe ∧ c = lineFeed then 1 else 0
  | _ => 0

/-- The ends of lines that are no newlines. -/
def semicolons : Part → Nat
  | word [b] (.ok .lineEnd) => if b = semicolon then 1 else 0
  | _ => 0

/-- A newline ends a line, or it is hidden, or it is taken for a character. -/
theorem Sound.count {part : Part} (h : part.Sound) :
    part.lineEnds + part.hidden + part.taken =
      part.bytes.count Ascii.lineFeed + part.semicolons := by
  cases h with
  | blank passage => simp [lineEnds, hidden, taken, semicolons, bytes, passage.count_bytes]
  | lineFeed | semicolon => decide
  | comment h =>
    have hmark : slash ≠ apostrophe := by decide
    simp [lineEnds, hidden, taken, semicolons, bytes, Reading.isToken, hmark]
  | character | openCharacter => decide
  | @plain bytes reading h hreading =>
    have hcount : bytes.count Ascii.lineFeed = 0 := List.count_eq_zero.2 h
    have hends : lineEnds (.word bytes reading) = 0 :=
      if_neg fun hline => hreading ((Reading.isToken_iff _ _).1 hline)
    have hhidden : hidden (.word bytes reading) = 0 := by
      unfold hidden
      split <;> simp_all
    have htaken : taken (.word bytes reading) = 0 := by
      rcases bytes with _ | ⟨b, _ | ⟨c, rest⟩⟩
      · rfl
      · rfl
      · exact if_neg fun hmarks => h (by simp [hmarks.2])
    have hsemicolons : semicolons (.word bytes reading) = 0 := by
      unfold semicolons
      split <;> simp_all
    rw [hends, hhidden, htaken, hsemicolons]
    exact hcount.symm

end Part

end Lexer

namespace TextStream

open Lexer Ascii

/-! ## Rounds -/

/-- The rounds of a text that is made of some parts. -/
def roundsOf (file : String) : Place → List Part → List Round
  | place, [] => [⟨.ok .fileEnd, place.inFile file⟩]
  | place, .blank passage :: parts => roundsOf file (place.steps passage.bytes) parts
  | place, .word bytes reading :: parts =>
    ⟨reading, place.inFile file⟩ :: roundsOf file (place.steps bytes) parts

/-- Blanks only move what follows them. -/
theorem roundsOf_row (file : String) (place : Place) (row : List Passage) (parts : List Part) :
    roundsOf file place (row.map .blank ++ parts) =
      roundsOf file (place.steps (rowBytes row)) parts := by
  induction row generalizing place with
  | nil => rfl
  | cons p row ih => rw [List.map_cons, List.cons_append, roundsOf, ih, rowBytes_cons, Place.steps_append]

/-- What one round passes over and what it reads. -/
theorem advance_parts (s : TextStream) :
    ∃ row bytes, s.rest = rowBytes row ++ (bytes ++ s.advance.2.rest) ∧
      s.advance.2.start = s.place.steps (rowBytes row) ∧
      s.advance.2.place = s.advance.2.start.steps bytes ∧
      (s.advance.1 = .ok .fileEnd ∧ bytes = [] ∨
        s.advance.1 ≠ .ok .fileEnd ∧ bytes ≠ [] ∧ Part.Sound (.word bytes s.advance.1)) := by
  obtain ⟨⟨row, hrow⟩, hcomment⟩ := exists_row_of_gap s.rest
  have hsplit : s.rest = rowBytes row ++ s.rest.drop (gap s.rest).size := by
    rw [← hrow, List.take_append_drop]
  unfold advance
  dsimp only
  split
  · rename_i hunclosed
    obtain ⟨body, hbody, hopen⟩ := hcomment hunclosed
    refine ⟨row, slash :: star :: body, ?_, by rw [hrow], ?_, .inr ⟨by simp, by simp, .comment hopen⟩⟩
    · rw [List.append_nil, ← hbody, ← hsplit]
    · rw [hbody]
  · cases hdrop : s.rest.drop (gap s.rest).size with
    | nil =>
      refine ⟨row, [], ?_, by rw [hrow], rfl, .inl ⟨rfl, rfl⟩⟩
      rw [hsplit, hdrop]
      simp
    | cons b rest =>
      refine ⟨row, (b :: rest).take (lex (b :: rest)).size, ?_, by rw [hrow], rfl,
        .inr ⟨lex_ne_fileEnd b rest, ?_, lex_lines b rest⟩⟩
      · rw [List.take_append_drop, ← hdrop, ← hsplit]
      · simpa using Nat.ne_of_gt (lex_size_pos b rest)

/-- A text is made of its parts, and its rounds are those of the parts. -/
theorem exists_parts {limit : Nat} {s : TextStream} (hheld : s.held = none)
    (hlimit : s.remaining < limit) :
    ∃ parts : List Part, s.rest = parts.flatMap Part.bytes ∧
      s.roundsWithin limit = roundsOf s.file s.place parts ∧ ∀ part ∈ parts, part.Sound := by
  induction limit generalizing s with
  | zero => omega
  | succ limit ih =>
    have hpeek : s.peek = s.advance := by rw [peek, hheld]
    have hfile := file_advance s
    obtain ⟨row, bytes, hrest, hstart, hplace, hread⟩ := advance_parts s
    have hrow : (row.map Part.blank).flatMap Part.bytes = rowBytes row := by
      rw [List.flatMap_map]
      rfl
    rw [roundsWithin, hpeek]
    rcases hread with ⟨hend, rfl⟩ | ⟨hne, -, hsound⟩
    · refine ⟨row.map .blank, ?_, ?_, ?_⟩
      · rw [hrow, hrest, rest_of_fileEnd hend, List.append_nil, List.append_nil]
      · rw [← List.append_nil (row.map Part.blank), roundsOf_row, ← hstart]
        simp only [hend]
        rw [position, hfile]
        rfl
      · simp only [List.mem_map]
        rintro _ ⟨p, -, rfl⟩
        exact .blank p
    · have hless := s.remaining_eat_lt (by rwa [hpeek])
      rw [hpeek] at hless
      obtain ⟨parts, hparts, hrounds, hsounds⟩ := ih (s := s.advance.2.eat) rfl (by omega)
      refine ⟨row.map .blank ++ .word bytes s.advance.1 :: parts, ?_, ?_, ?_⟩
      · rw [List.flatMap_append, hrow, List.flatMap_cons, ← hparts]
        exact hrest
      · rw [roundsOf_row, ← hstart, roundsOf, ← hplace, ← hfile]
        dsimp only
        split
        · rename_i hend
          exact absurd hend hne
        · rw [hrounds]
          rfl
      · intro part hpart
        rcases List.mem_append.1 hpart with hpart | hpart
        · obtain ⟨p, -, rfl⟩ := List.mem_map.1 hpart
          exact .blank p
        · rcases List.mem_cons.1 hpart with rfl | hpart
          · exact hsound
          · exact hsounds part hpart

theorem lineEnds_roundsOf (file : String) (place : Place) (parts : List Part) :
    (roundsOf file place parts).countP (fun round => round.outcome.isToken .lineEnd) =
      (parts.map Part.lineEnds).sum := by
  induction parts generalizing place with
  | nil => rfl
  | cons part parts ih =>
    cases part with
    | blank passage => simp [roundsOf, ih, Part.lineEnds]
    | word bytes reading => simp [roundsOf, List.countP_cons, ih, Part.lineEnds, Nat.add_comm]

/-- Sums of what holds of each part. -/
theorem count_of_sound {parts : List Part} (h : ∀ part ∈ parts, part.Sound) :
    (parts.map Part.lineEnds).sum + (parts.map Part.hidden).sum + (parts.map Part.taken).sum =
      (parts.flatMap Part.bytes).count lineFeed + (parts.map Part.semicolons).sum := by
  induction parts with
  | nil => rfl
  | cons part parts ih =>
    obtain ⟨hpart, hparts⟩ := List.forall_mem_cons.1 h
    have hcount := hpart.count
    have ih := ih hparts
    simp only [List.map_cons, List.sum_cons, List.flatMap_cons, List.count_append]
    omega

/-- Every newline has its place.  A text is a row of blanks and words, of which the words are what the
    rounds read, where they read it.  There are as many ends of lines among the rounds as the text has
    newlines and words that are semicolons, less the newlines in block comments and continued lines
    and those that are taken for a character. -/
theorem newlines_accounted (file : String) (text : List UInt8) :
    ∃ parts : List Part, text = parts.flatMap Part.bytes ∧
      (ofBytes file text).rounds = roundsOf file {} parts ∧ (∀ part ∈ parts, part.Sound) ∧
      (ofBytes file text).rounds.countP (fun round => round.outcome.isToken .lineEnd) +
          (parts.map Part.hidden).sum + (parts.map Part.taken).sum =
        text.count lineFeed + (parts.map Part.semicolons).sum := by
  have hparts := exists_parts (s := ofBytes file text) rfl (Nat.lt_succ_self _)
  obtain ⟨parts, hbytes, hrounds, hsound⟩ := hparts
  refine ⟨parts, hbytes, hrounds, hsound, ?_⟩
  have hcount := count_of_sound hsound
  rw [← hbytes] at hcount
  rw [show (ofBytes file text).rounds = roundsOf file {} parts from hrounds, lineEnds_roundsOf]
  exact hcount

/-- A newline after an opening mark is lost: there is no comment and no continued line in the text,
    yet no round reads the end of a line. -/
theorem newline_lost :
    lineFeed ∈ [apostrophe, lineFeed] ∧ slash ∉ [apostrophe, lineFeed] ∧
      backslash ∉ [apostrophe, lineFeed] ∧
      (ofBytes "t" [apostrophe, lineFeed]).rounds.map Round.outcome =
        [.error .invalidCharacter, .ok .fileEnd] := by
  have hgap : gap [apostrophe, lineFeed] = ⟨0, false⟩ := gap_of_isSolid (by decide) _
  have hlex : lex [apostrophe, lineFeed] = ⟨.error .invalidCharacter, 2⟩ := rfl
  have hend : lex [] = ⟨.ok .fileEnd, 0⟩ := rfl
  refine ⟨by decide, by decide, by decide, ?_⟩
  simp [ofBytes, rounds, remaining, roundsWithin, peek, eat, advance, hgap, hlex, gap_nil, hend,
    Except.toOption]

end TextStream

end CartScript
