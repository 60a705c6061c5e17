import CartScript.Proofs.Token.Blanks

/-!
# Reading what was written

Every token can be written in several ways: a number in three radices with underscores or as a
character, a text with its bytes escaped, a directive in any letter case, the end of a line as a line
feed or a semicolon.  Tokens that are written down with blanks between them are read back, whichever way
each of them was written.
-/

namespace CartScript

namespace Lexer

open Ascii

/-! ## The ways to write a token -/

/-- The ways to write a token. -/
inductive Spelling : Token → List UInt8 → Prop
  | name {cs : List Char} (h : Text.isName cs = true) :
      Spelling (.name (String.ofList cs)) (bytes cs)
  | decimal {word : List UInt8} {n : Nat} (h : Numeral 10 word n)
      (hhead : word.head? ≠ some underscore) (hn : n < 2 ^ 63) :
      Spelling (.number (Int64.ofNat n)) word
  | radix {mark : List Char} {radix : Nat} {word : List UInt8} {n : Nat}
      (hmark : (mark, radix) ∈ radixMarks) (h : Numeral radix word n) (hn : n < 2 ^ 63) :
      Spelling (.number (Int64.ofNat n)) (bytes mark ++ word)
  | character {b : UInt8} (h : b ≠ backslash) :
      Spelling (.number (Int64.ofNat b.toNat)) [apostrophe, b, apostrophe]
  | escape {e b : UInt8} (h : Escape e b) :
      Spelling (.number (Int64.ofNat b.toNat)) [apostrophe, backslash, e, apostrophe]
  | text {s : String} {word : List UInt8} (h : Quoted (Utf8.encode s) word) :
      Spelling (.text s) (quote :: word ++ [quote])
  | directive {d : Directive} {word : List UInt8} (h : List.Forall₂ Cased d.word.toList word) :
      Spelling (.directive d) (hash :: word)
  | symbol {s : Symbol} (h : ∀ b, s ≠ .other b) : Spelling (.symbol s) (bytes s.spelling.toList)
  | lineFeed : Spelling .lineEnd [lineFeed]
  | semicolon : Spelling .lineEnd [semicolon]

/-- What stands between two tokens: a space or a tab, and more blanks in any mix. -/
def Separator (blanks : List UInt8) : Prop :=
  ∃ b row, (b = space ∨ b = tab) ∧ (∀ p ∈ row, p.isFirm = true) ∧ blanks = b :: rowBytes row

/-- Tokens written one after the other, with blanks between them. -/
inductive Written : List Token → List UInt8 → Prop
  | nil : Written [] []
  | last {token : Token} {word : List UInt8} (h : Spelling token word) : Written [token] word
  | cons {token : Token} {tokens : List Token} {word blanks rest : List UInt8}
      (h : Spelling token word) (hblanks : Separator blanks) (hrest : Written tokens rest) :
      Written (token :: tokens) (word ++ blanks ++ rest)

variable {blanks rest word : List UInt8} {b : UInt8} {token : Token} {tokens : List Token} {c : Char}

/-! ## Directives and symbols -/

/-- A letter in either case. -/
theorem of_cased_letter (hc : c.isLower = true) (h : Cased c b) :
    isLetterOrDigit b = true ∧ toChar (toLower b) = c := by
  have halpha : ((c.isUpper || c.isLower) || c == '_') = true := by simp [hc]
  have hplain := (plain_of_isAlphanum (isAlphanum_of_isAlpha halpha)).1
  have hall : ∀ n < 128, (Char.ofNat n).isLower = true →
      ∀ b ∈ [ofChar (Char.ofNat n), ofChar (Char.ofNat n).toUpper],
        isLetterOrDigit b = true ∧ toChar (toLower b) = Char.ofNat n := by decide +kernel
  have hletter := hall c.toNat hplain
  rw [Char.ofNat_toNat] at hletter
  exact hletter hc b (by simpa [Cased] using h)

/-- Letters in any case are read as the letters. -/
theorem of_cased_word {cs : List Char} (hcs : ∀ c ∈ cs, c.isLower = true)
    (h : List.Forall₂ Cased cs word) :
    (∀ b ∈ word, isLetterOrDigit b = true) ∧ toText (word.map toLower) = String.ofList cs := by
  have hmap : (∀ b ∈ word, isLetterOrDigit b = true) ∧ word.map (toChar ∘ toLower) = cs := by
    induction h with
    | nil => simp
    | cons hb _ ih =>
      obtain ⟨hc, hcs⟩ := List.forall_mem_cons.1 hcs
      obtain ⟨hletter, hlower⟩ := of_cased_letter hc hb
      obtain ⟨hletters, hlowers⟩ := ih hcs
      exact ⟨List.forall_mem_cons.2 ⟨hletter, hletters⟩, by simp [hlower, hlowers]⟩
  exact ⟨hmap.1, by rw [toText, List.map_map, hmap.2]⟩

/-- A directive. -/
theorem lex_directive {d : Directive} (h : List.Forall₂ Cased d.word.toList word)
    (hrest : EndsWord rest) :
    lex (hash :: word ++ rest) = ⟨.ok (.directive d), (hash :: word).length⟩ := by
  have hlower : ∀ c ∈ d.word.toList, c.isLower = true :=
    List.all_eq_true.1 (by cases d <;> decide)
  have hword : Directive.ofWord? d.word = some d := by cases d <;> decide
  obtain ⟨hletters, htext⟩ := of_cased_word hlower h
  have hnone : rest.takeWhile isLetterOrDigit = [] := by
    cases rest with
    | nil => rfl
    | cons b rest =>
      have hb : isLetterOrDigit b = false := (Bool.or_eq_false_iff.1 (hrest b rfl)).1
      rw [List.takeWhile_cons_of_neg (by simp [hb])]
  have hrun : run isLetterOrDigit (word ++ rest) = word := by
    rw [run, List.takeWhile_append_of_pos hletters, hnone, List.append_nil]
  have hlex : lex (hash :: word ++ rest) = (directive (word ++ rest)).grow 1 := rfl
  rw [hlex, directive, hrun, htext, String.ofList_toList, hword]
  simp only [Lexeme.grow, List.length_cons, Nat.add_comm]

/-- A text that starts with a space or a tab, or is empty. -/
def Parted (rest : List UInt8) : Prop := ∀ b, rest.head? = some b → b = space ∨ b = tab

theorem Parted.endsWord (h : Parted rest) : EndsWord rest := fun b hb => by
  rcases h b hb with rfl | rfl
  · decide
  · decide

/-- Blanks between two tokens keep a mark from growing into a longer one. -/
theorem head?_bind_ofPair? (h : Parted rest) (b : UInt8) :
    rest.head?.bind (Symbol.ofPair? b) = none := by
  cases rest with
  | nil => rfl
  | cons c rest =>
    have hnone : ∀ p ∈ Symbol.pairs, p.1.2 ≠ space ∧ p.1.2 ≠ tab := by decide
    refine List.lookup_eq_none_iff.2 fun p hp => ?_
    rw [bne_iff_ne]
    intro heq
    obtain rfl : c = p.1.2 := congrArg Prod.snd heq
    rcases h p.1.2 rfl with hc | hc
    · exact (hnone p hp).1 hc
    · exact (hnone p hp).2 hc

/-- A slash in front of a space or a tab starts no comment. -/
theorem gap_slash (h : Parted rest) : gap (slash :: rest) = ⟨0, false⟩ := by
  have hcomment : comment rest = .absent := by
    cases rest with
    | nil => rfl
    | cons b rest => rcases h b rfl with rfl | rfl <;> rfl
  have hblank : blank (slash :: rest) = .absent := hcomment
  rw [gap]
  split <;> simp_all

/-- An operator, a bracket or the like. -/
theorem lex_symbol {s : Symbol} (h : ∀ b, s ≠ .other b) (hrest : Parted rest) :
    gap (bytes s.spelling.toList ++ rest) = ⟨0, false⟩ ∧
      lex (bytes s.spelling.toList ++ rest) =
        ⟨.ok (.symbol s), (bytes s.spelling.toList).length⟩ := by
  -- A mark of one byte is asked for its longer form first.
  have hsingle {b : UInt8} (hb : isGraphic b = true) :
      symbol b rest = ⟨.ok (.symbol (Symbol.ofByte b)), 1⟩ := by
    rw [symbol, head?_bind_ofPair? hrest]
    exact if_pos hb
  cases s with
  | other b => exact absurd rfl (h b)
  | shiftLeft | shiftRight | lessEqual | greaterEqual | equal | notEqual | logicalAnd | logicalOr =>
    exact ⟨gap_of_isSolid (by decide) _, rfl⟩
  | divide => exact ⟨gap_slash hrest, hsingle (b := slash) (by decide)⟩
  | plus | minus | times | modulo | less | greater | bitAnd | bitXor | bitOr | bitNot | logicalNot
  | openParen | closeParen | openBracket | closeBracket | comma | colon | assign =>
    exact ⟨gap_of_isSolid (by decide) _, hsingle (by decide)⟩

/-! ## Rows of tokens -/

/-- A token is read from each of the ways to write it. -/
theorem Spelling.lex (h : Spelling token word) (hrest : Parted rest) :
    gap (word ++ rest) = ⟨0, false⟩ ∧ lex (word ++ rest) = ⟨.ok token, word.length⟩ := by
  cases h with
  | @name cs hname =>
    obtain ⟨-, -, b, tail, hbytes, hstart⟩ := isName_bytes hname
    refine ⟨?_, lex_name hname hrest.endsWord⟩
    rw [hbytes]
    exact gap_of_isSolid (isSolid_of_startsName hstart) _
  | decimal hnumeral hhead hn =>
    obtain ⟨hgap, hlex⟩ := hnumeral.lex_decimal hhead hrest.endsWord
    exact ⟨hgap, by rw [hlex, numberOf, if_pos hn]⟩
  | radix hmark hnumeral hn =>
    obtain ⟨hgap, hlex⟩ := hnumeral.lex_radix hmark hrest.endsWord
    exact ⟨hgap, by rw [hlex, numberOf, if_pos hn]⟩
  | @character b hb =>
    refine ⟨gap_of_isSolid (by decide) _, ?_⟩
    show (Lexer.character (b :: apostrophe :: rest)).grow 1 = _
    rw [Lexer.character, if_neg hb]
    rfl
  | @escape e b he =>
    refine ⟨gap_of_isSolid (by decide) _, ?_⟩
    show (Lexer.character (backslash :: e :: apostrophe :: rest)).grow 1 = _
    rw [Lexer.character, if_pos rfl]
    simp only [he.escape?]
    rfl
  | text hquoted => exact ⟨gap_of_isSolid (by decide) _, hquoted.lex rest⟩
  | directive hword => exact ⟨gap_of_isSolid (by decide) _, lex_directive hword hrest.endsWord⟩
  | symbol hsymbol => exact lex_symbol hsymbol hrest
  | lineFeed | semicolon => exact ⟨gap_of_isSolid (by decide) _, rfl⟩

theorem parted_nil : Parted [] := fun b hb => by simp at hb

/-- Only the end of a text is read from nothing. -/
theorem Spelling.ne_nil (h : Spelling token word) : word ≠ [] := by
  rintro rfl
  have hlex := (h.lex parted_nil).2
  obtain rfl : Token.fileEnd = token := Except.ok.inj (congrArg Lexeme.outcome hlex)
  cases h

theorem Spelling.spells (h : Spelling token word) (hrest : Parted rest)
    (hspells : Spells rest tokens) : Spells (word ++ rest) (token :: tokens) := by
  obtain ⟨hgap, hlex⟩ := h.lex hrest
  cases word with
  | nil => exact absurd rfl h.ne_nil
  | cons b word => exact Spells.word hgap hlex hspells

theorem Separator.parted (h : Separator blanks) (rest : List UInt8) : Parted (blanks ++ rest) := by
  obtain ⟨b, row, hb, -, rfl⟩ := h
  intro c hc
  obtain rfl : b = c := by simpa using hc
  exact hb

theorem Separator.passed (h : Separator blanks) : Passed blanks := by
  obtain ⟨b, row, hb, hrow, rfl⟩ := h
  have hspace : isSpace b = true := by rcases hb with rfl | rfl <;> decide
  have hfirm : ∀ p ∈ Passage.space b hspace :: row, p.isFirm = true :=
    List.forall_mem_cons.2 ⟨rfl, hrow⟩
  exact passed_row hfirm

/-- Tokens that were written down are spelled. -/
theorem Written.spells {bytes : List UInt8} (h : Written tokens bytes) : Spells bytes tokens := by
  induction h with
  | nil => exact .done
  | last h =>
    have hspells := h.spells parted_nil .done
    rwa [List.append_nil] at hspells
  | cons h hblanks _ ih =>
    rw [List.append_assoc]
    exact h.spells (hblanks.parted _) (.blank hblanks.passed ih)

variable {bytes : List UInt8} {tokens : List Token}

/-- Every token has at least one byte. -/
theorem Spells.length_le (h : Spells bytes tokens) : tokens.length ≤ bytes.length := by
  induction h with
  | done => exact Nat.le_refl _
  | blank hpassed h ih =>
    rw [List.length_append]
    exact Nat.le_add_left_of_le ih
  | word hgap hlex h ih =>
    simp only [List.length_cons, List.length_append]
    omega

theorem Spells.fileEnd_notMem (h : Spells bytes tokens) : .fileEnd ∉ tokens := by
  induction h with
  | done => exact List.not_mem_nil
  | blank hpassed h ih => exact ih
  | @word b tail rest token tokens hgap hlex h ih =>
    have hne := lex_ne_fileEnd b (tail ++ rest)
    rw [← List.cons_append, hlex] at hne
    rw [List.mem_cons, not_or]
    exact ⟨fun heq => hne (congrArg Except.ok heq.symm), ih⟩

end Lexer

/-- A stream with some tokens ahead gives them one after the other, and then the end of the text. -/
theorem TextStream.Ahead.roundsWithin {tokens : List Token} {s : TextStream} (h : s.Ahead tokens)
    (hend : .fileEnd ∉ tokens) {limit : Nat} (hlimit : tokens.length < limit) :
    (TextStream.roundsWithin limit s).map Round.outcome = tokens.map .ok ++ [.ok .fileEnd] := by
  obtain ⟨limit, rfl⟩ := Nat.exists_eq_add_of_lt hlimit
  clear hlimit
  induction tokens generalizing s with
  | nil =>
    obtain ⟨hpeek, -⟩ := h.peek
    rw [TextStream.roundsWithin]
    simp only [hpeek, List.headD_nil]
    rfl
  | cons token tokens ih =>
    obtain ⟨hpeek, hfaces⟩ := h.peek
    obtain ⟨htoken, htokens⟩ := not_or.1 (mt List.mem_cons.2 hend)
    have hrest := ih hfaces.eat htokens
    rw [List.length_cons, Nat.add_right_comm tokens.length 1 limit, TextStream.roundsWithin]
    simp only [hpeek, List.headD_cons]
    split
    · rename_i heq
      exact absurd (Except.ok.inj heq).symm htoken
    · rw [List.map_cons, hrest]
      rfl

namespace Lexer

open Ascii

/-- A text is read as the tokens that it spells. -/
theorem Spells.rounds {bytes : List UInt8} {tokens : List Token} (h : Spells bytes tokens)
    (file : String) :
    (TextStream.ofBytes file bytes).rounds.map TextStream.Round.outcome =
      tokens.map .ok ++ [.ok .fileEnd] := by
  have hahead : (TextStream.ofBytes file bytes).Ahead tokens := .inl ⟨rfl, h⟩
  exact hahead.roundsWithin h.fileEnd_notMem (Nat.lt_succ_of_le h.length_le)

/-- Tokens that are written down, each in any of its ways and with blanks between them, are read as
    these tokens, and then comes the end of the text.  There may be blanks in front as well. -/
theorem rounds_of_written (file : String) {lead : List Passage} {tokens : List Token}
    {bytes : List UInt8} (hlead : ∀ p ∈ lead, p.isFirm = true) (h : Written tokens bytes) :
    (TextStream.ofBytes file (rowBytes lead ++ bytes)).rounds.map TextStream.Round.outcome =
      tokens.map .ok ++ [.ok .fileEnd] :=
  Spells.rounds (.blank (passed_row hlead) h.spells) file

/-- A line with a directive in mixed case, a comment that ends with three stars, an escaped character,
    underscores in a number, a continued line, a slash on its own and a text that is not plain. -/
theorem rounds_of_written_mixed :
    ∃ tokens bytes, tokens = [.directive .ifDefined, .name "x_1", .number 10, .number 255,
        .symbol .divide, .text "\"é", .lineEnd] ∧
      bytes = Utf8.encode "#IFdef x_1\t/*/***/\r'\\n' $_F_f \\\n/ \"\\\"é\"\t;" ∧
      Written tokens bytes ∧
      (TextStream.ofBytes "t" (rowBytes [.continued true] ++ bytes)).rounds.map
        TextStream.Round.outcome = tokens.map .ok ++ [.ok .fileEnd] := by
  have hspace : Separator (Utf8.encode " ") := ⟨space, [], .inl rfl, by simp, by decide⟩
  have htab : Separator (Utf8.encode "\t") := ⟨tab, [], .inr rfl, by simp, by decide⟩
  have hcomment : Separator (Utf8.encode "\t/*/***/\r") :=
    ⟨tab, [.blockComment [slash, star, star] (by decide), .space carriageReturn (by decide)], .inr rfl,
      by simp [Passage.isFirm], by decide⟩
  have hcontinued : Separator (Utf8.encode " \\\n") :=
    ⟨space, [.continued false], .inl rfl, by simp [Passage.isFirm], by decide⟩
  have hdirective : Spelling (.directive .ifDefined) (Utf8.encode "#IFdef") :=
    .directive (.cons (.inr rfl) (.cons (.inr rfl) (.cons (.inl rfl) (.cons (.inl rfl)
      (.cons (.inl rfl) .nil)))))
  have hname : Spelling (.name "x_1") (Utf8.encode "x_1") :=
    .name (by decide : Text.isName ['x', '_', '1'] = true)
  have hcharacter : Spelling (.number 10) (Utf8.encode "'\\n'") := .escape .lineFeed
  have hnumeral : Numeral 16 (Utf8.encode "_F_f") 255 :=
    ⟨[15, 15], by simp, .cons ⟨by decide, .inr rfl⟩ (.cons ⟨by decide, .inl rfl⟩ .nil), rfl⟩
  have hnumber : Spelling (.number 255) (Utf8.encode "$_F_f") :=
    .radix (by decide : (['$'], 16) ∈ radixMarks) hnumeral (by decide)
  have hslash : Spelling (.symbol .divide) (Utf8.encode "/") := .symbol (by simp)
  have hquoted : Quoted [quote, 0xC3, 0xA9] [backslash, quote, 0xC3, 0xA9] :=
    .escaped .quote (.plain (by decide) (by decide) (by decide)
      (.plain (by decide) (by decide) (by decide) .nil))
  have htext : Spelling (.text "\"é") (Utf8.encode "\"\\\"é\"") := .text (s := "\"é") hquoted
  have hwritten := Written.cons hdirective hspace <| .cons hname hcomment <|
    .cons hcharacter hspace <| .cons hnumber hcontinued <| .cons hslash hspace <|
    .cons htext htab <| .last .semicolon
  exact ⟨_, _, rfl, by decide, hwritten, rounds_of_written "t" (by simp [Passage.isFirm]) hwritten⟩

end Lexer

end CartScript
