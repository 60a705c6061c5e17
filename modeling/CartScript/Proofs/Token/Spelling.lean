import CartScript.Listing.Operand
import CartScript.Proofs.Text.Digits
import CartScript.Proofs.Text.Utf8
import CartScript.Token.Stream

/-!
# Tokens as they are written

Names, numbers, texts and marks that are written out are read as what they stand for, whatever
follows them, as long as it does not go on with the word.
-/

namespace CartScript

namespace Ascii

/-! ## Classes of bytes -/

theorem plain_of_isAlphanum {c : Char} (h : (c.isAlphanum || c == '_') = true) :
    c.toNat < 128 ∧ continuesName (ofChar c) = true := by
  have hplain : c.toNat < 128 := by
    change (((decide ('A'.val ≤ c.val ∧ c.val ≤ 'Z'.val) ||
      decide ('a'.val ≤ c.val) && decide (c.val ≤ 'z'.val)) ||
      decide ('0'.val ≤ c.val) && decide (c.val ≤ '9'.val)) || c == '_') = true at h
    simp only [Bool.or_eq_true, Bool.and_eq_true, decide_eq_true_eq, beq_iff_eq,
      UInt32.le_iff_toNat_le] at h
    rcases h with (((h | h) | h) | rfl)
    · exact Nat.lt_of_le_of_lt h.2 (by decide)
    · exact Nat.lt_of_le_of_lt h.2 (by decide)
    · exact Nat.lt_of_le_of_lt h.2 (by decide)
    · decide
  refine ⟨hplain, ?_⟩
  -- There are only 128 plain characters, so all of them can be tried.
  have hall : ∀ n < 128, ((Char.ofNat n).isAlphanum || Char.ofNat n == '_') = true →
      continuesName (ofChar (Char.ofNat n)) = true := by decide
  have hc := hall c.toNat hplain
  rw [Char.ofNat_toNat] at hc
  exact hc h

theorem isAlphanum_of_isAlpha {c : Char} (h : (c.isAlpha || c == '_') = true) :
    (c.isAlphanum || c == '_') = true := by
  show ((c.isAlpha || c.isDigit) || c == '_') = true
  rw [Bool.or_eq_true] at h ⊢
  rw [Bool.or_eq_true]
  exact h.imp_left .inl

theorem startsName_of_isAlpha {c : Char} (h : (c.isAlpha || c == '_') = true) :
    startsName (ofChar c) = true := by
  have hplain := (plain_of_isAlphanum (isAlphanum_of_isAlpha h)).1
  have hall : ∀ n < 128, ((Char.ofNat n).isAlpha || Char.ofNat n == '_') = true →
      startsName (ofChar (Char.ofNat n)) = true := by decide
  have hc := hall c.toNat hplain
  rw [Char.ofNat_toNat] at hc
  exact hc h

end Ascii

namespace Lexer

open Ascii

/-- What follows a word does not go on with it. -/
def EndsWord (rest : List UInt8) : Prop := ∀ b, rest.head? = some b → continuesName b = false

variable {rest : List UInt8} {cs : List Char} {b : UInt8} {n : Nat}

theorem run_of_endsWord {word : List UInt8} (hword : ∀ b ∈ word, continuesName b = true)
    (hrest : EndsWord rest) : run continuesName (word ++ rest) = word := by
  have hnone : rest.takeWhile continuesName = [] := by
    cases rest with
    | nil => rfl
    | cons b rest => simp [hrest b rfl]
  rw [run, List.takeWhile_append_of_pos hword, hnone, List.append_nil]

/-- A byte with which no blank starts. -/
def isSolid (b : UInt8) : Bool := !isSpace b && b != backslash && b != slash

theorem isSolid_of_startsName (h : startsName b = true) : isSolid b = true := by
  simp only [isSolid, isSpace, Bool.and_eq_true, Bool.not_eq_true', Bool.or_eq_false_iff,
    beq_eq_false_iff_ne, bne_iff_ne]
  refine ⟨⟨⟨⟨?_, ?_⟩, ?_⟩, ?_⟩, ?_⟩ <;> rintro rfl <;> revert h <;> decide

theorem gap_of_isSolid (h : isSolid b = true) (rest : List UInt8) :
    gap (b :: rest) = ⟨0, false⟩ := by
  simp only [isSolid, Bool.and_eq_true, Bool.not_eq_true', bne_iff_ne] at h
  have hblank : blank (b :: rest) = .absent := by
    rw [blank, h.1.1, if_neg (by simp), if_neg h.1.2, if_neg h.2]
  rw [gap]
  split <;> simp_all

/-! ## One token -/

/-- The bytes of a name. -/
theorem isName_bytes (h : Text.isName cs = true) :
    Plain cs ∧ (∀ b ∈ bytes cs, continuesName b = true) ∧
      ∃ b rest, bytes cs = b :: rest ∧ startsName b = true := by
  cases cs with
  | nil => simp [Text.isName] at h
  | cons c cs =>
    simp only [Text.isName, Bool.and_eq_true, List.all_eq_true] at h
    have halphanum : ∀ d ∈ c :: cs, (d.isAlphanum || d == '_') = true :=
      List.forall_mem_cons.2 ⟨isAlphanum_of_isAlpha h.1, h.2⟩
    refine ⟨fun d hd => (plain_of_isAlphanum (halphanum d hd)).1, fun b hb => ?_,
      ofChar c, bytes cs, rfl, startsName_of_isAlpha h.1⟩
    obtain ⟨d, hd, rfl⟩ := List.mem_map.1 hb
    exact (plain_of_isAlphanum (halphanum d hd)).2

/-- A name. -/
theorem lex_name (h : Text.isName cs = true) (hrest : EndsWord rest) :
    lex (bytes cs ++ rest) = ⟨.ok (.name (String.ofList cs)), (bytes cs).length⟩ := by
  obtain ⟨hplain, hword, b, tail, hbytes, hstart⟩ := isName_bytes h
  have hname : lex (bytes cs ++ rest) = name (bytes cs ++ rest) := by
    rw [hbytes, List.cons_append, lex]
    -- The lexer asks for names last; a byte that starts one is none of the others.
    have hother : (b == lineFeed || b == semicolon) = false ∧ (b == hash) = false ∧
        (isDigit b || b == dollar) = false ∧ (b == quote) = false ∧ (b == apostrophe) = false := by
      simp only [startsName, isLetter, isUpper, isLower, isDigit] at hstart ⊢
      grind
    simp only [hother, hstart, Bool.false_eq_true, if_false, if_true]
  rw [hname, name, run_of_endsWord hword hrest, toText_bytes hplain]

theorem lex_of_isDigit (h : isDigit b = true) (rest : List UInt8) :
    lex (b :: rest) = number b rest := by
  have hother : (b == lineFeed || b == semicolon) = false ∧ (b == hash) = false := by
    simp only [isDigit] at h ⊢
    grind
  simp only [lex, hother, h, Bool.true_or, Bool.false_eq_true, if_false, if_true]

theorem isLetter_of_isDigit (h : isDigit b = true) : isLetter b = false := by
  simp only [isDigit, isLetter, isUpper, isLower] at h ⊢
  grind

theorem isLetter_of_continuesName (h : continuesName b = false) : isLetter b = false := by
  simp only [continuesName, isLetterOrDigit, Bool.or_eq_false_iff] at h
  exact h.1.1

/-- After a zero, only a letter names a radix. -/
theorem zeroRadix?_eq_none (h : ∀ b, rest.head? = some b → isLetter b = false) :
    zeroRadix? rest = none := by
  cases rest with
  | nil => rfl
  | cons b rest =>
    have hb := h b rfl
    have hhex : ¬ (b = 0x78 ∨ b = 0x58) := by
      rintro (rfl | rfl) <;> revert hb <;> decide
    have hbinary : ¬ (b = 0x62 ∨ b = 0x42) := by
      rintro (rfl | rfl) <;> revert hb <;> decide
    rw [zeroRadix?, if_neg hhex, if_neg hbinary]

/-! ## Numbers and texts -/

/-- A letter as it is or its capital. -/
def Cased (c : Char) (b : UInt8) : Prop := b = ofChar c ∨ b = ofChar c.toUpper

/-- The digits of a number in some radix, the leading one first, with underscores among them. -/
def Numeral (radix : Nat) (word : List UInt8) (n : Nat) : Prop :=
  ∃ ds : List Nat, ds ≠ [] ∧
    List.Forall₂ (fun d b => d < radix ∧ Cased d.digitChar b) ds (word.filter (· != underscore)) ∧
    ds.foldl (fun m d => m * radix + d) 0 = n

/-- What stands before the digits of a number, with the radix that it names. -/
def radixMarks : List (List Char × Nat) :=
  [(['$'], 16), (['0', 'x'], 16), (['0', 'X'], 16), (['0', 'b'], 2), (['0', 'B'], 2)]

/-- The byte after a backslash and the byte that the two stand for. -/
inductive Escape : UInt8 → UInt8 → Prop
  | lineFeed : Escape (ofChar 'n') lineFeed
  | carriageReturn : Escape (ofChar 'r') carriageReturn
  | tab : Escape (ofChar 't') tab
  | null : Escape (ofChar '0') 0
  | backslash : Escape backslash backslash
  | quote : Escape quote quote
  | apostrophe : Escape apostrophe apostrophe

/-- The bytes of a text and how they stand between its quotes. -/
inductive Quoted : List UInt8 → List UInt8 → Prop
  | nil : Quoted [] []
  | plain {b : UInt8} {content word : List UInt8} (hquote : b ≠ quote) (hbackslash : b ≠ backslash)
      (hlineFeed : b ≠ lineFeed) (h : Quoted content word) : Quoted (b :: content) (b :: word)
  | escaped {e b : UInt8} {content word : List UInt8} (he : Escape e b) (h : Quoted content word) :
      Quoted (b :: content) (backslash :: e :: word)

variable {word : List UInt8} {d radix : Nat} {c : Char}

/-- What a digit is read as. -/
theorem of_cased_digitChar (hd : d < 16) (h : Cased d.digitChar b) :
    continuesName b = true ∧ Digits.digit? 16 (toChar b) = some d ∧ toChar b ≠ '+' ∧ toChar b ≠ '-' := by
  have hall : ∀ d < 16, ∀ b ∈ [ofChar d.digitChar, ofChar d.digitChar.toUpper],
      continuesName b = true ∧ Digits.digit? 16 (toChar b) = some d ∧ toChar b ≠ '+' ∧ toChar b ≠ '-' := by
    decide +kernel
  exact hall d hd b (by simpa [Cased] using h)

/-- A digit of a radix is a digit of each larger one. -/
theorem digit?_of_lt (h : Digits.digit? 16 c = some d) (hd : d < radix) :
    Digits.digit? radix c = some d := by
  simp only [Digits.digit?, Option.filter_eq_some_iff] at h ⊢
  exact ⟨h.1, by simpa using hd⟩

/-- Each byte of a number is an underscore or one of its digits. -/
theorem Numeral.mem (h : Numeral radix word n) (hb : b ∈ word) :
    b = underscore ∨ ∃ d < radix, Cased d.digitChar b := by
  obtain ⟨ds, -, hdigits, -⟩ := h
  by_cases hunderscore : b = underscore
  · exact .inl hunderscore
  · obtain ⟨d, -, hd⟩ :=
      hdigits.flip.exists_mem (List.mem_filter.2 ⟨hb, by simpa using hunderscore⟩)
    exact .inr ⟨d, hd⟩

/-- A number goes on as far as a name would. -/
theorem Numeral.run (hradix : radix ≤ 16) (h : Numeral radix word n) (hrest : EndsWord rest) :
    run continuesName (word ++ rest) = word := by
  refine run_of_endsWord (fun b hb => ?_) hrest
  rcases h.mem hb with rfl | ⟨d, hd, hcased⟩
  · decide
  · exact (of_cased_digitChar (Nat.lt_of_lt_of_le hd hradix) hcased).1

/-- What the digits of a number are read as. -/
def numberOf (word : List UInt8) (n : Nat) : Except LexFault Token :=
  if n < 2 ^ 63 then .ok (.number (Int64.ofNat n))
  else .error (.malformedNumber (toText (word.filter (· != underscore))) .tooLarge)

/-- The digits of a number after some bytes that name the radix. -/
theorem Numeral.digits (hpos : 1 ≤ radix) (hradix : radix ≤ 16) (h : Numeral radix word n)
    (skipped : List UInt8) (hrest : EndsWord rest) :
    digits radix skipped.length (skipped ++ (word ++ rest)) =
      ⟨numberOf word n, (skipped ++ word).length⟩ := by
  have hrun := h.run hradix hrest
  obtain ⟨ds, hne, hdigits, rfl⟩ := h
  have hread : Digits.read Digits.signed64 radix ((word.filter (· != underscore)).map toChar) =
      if ((ds.foldl (fun m d => m * radix + d) 0 : Nat) : Int) ≤ Digits.signed64.greatest then
        .ok (ds.foldl (fun m d => m * radix + d) 0 : Nat) else .error .tooLarge := by
    generalize word.filter (· != underscore) = bs at hdigits
    have hcs : List.Forall₂ (fun d c => Digits.digit? radix c = some d) ds (bs.map toChar) :=
      List.forall₂_map_right_iff.2 <| hdigits.imp fun d b hd =>
        digit?_of_lt (of_cased_digitChar (Nat.lt_of_lt_of_le hd.1 hradix) hd.2).2.1 hd.1
    cases hdigits with
    | nil => exact absurd rfl hne
    | @cons d b ds bs hd _ =>
      -- The first digit is no sign.
      have hfirst := of_cased_digitChar (Nat.lt_of_lt_of_le hd.1 hradix) hd.2
      rw [Digits.read_of_unsigned _ _ (by simp) (by simpa using hfirst.2.2.1)
        (by simpa using hfirst.2.2.2)]
      exact Digits.readUpwards_eq hpos hcs (m := 0) (by decide)
  have hfits (n : Nat) : (n : Int) ≤ Digits.signed64.greatest ↔ n < 2 ^ 63 := by
    show (n : Int) ≤ 2 ^ 63 - 1 ↔ _
    omega
  simp only [Lexer.digits, List.drop_left, hrun, hread, hfits, List.length_append, numberOf]
  by_cases hn : ds.foldl (fun m d => m * radix + d) 0 < 2 ^ 63
  · simp only [if_pos hn]
    rfl
  · simp only [if_neg hn]
    rfl

/-- A decimal number. -/
theorem Numeral.lex_decimal (h : Numeral 10 word n) (hhead : word.head? ≠ some underscore)
    (hrest : EndsWord rest) :
    gap (word ++ rest) = ⟨0, false⟩ ∧ lex (word ++ rest) = ⟨numberOf word n, word.length⟩ := by
  have hdigits := h.digits (by decide) (by decide) [] hrest
  have hall : ∀ d < 10, d.digitChar.toUpper = d.digitChar ∧ isDigit (ofChar d.digitChar) = true ∧
      isSolid (ofChar d.digitChar) = true ∧ ofChar d.digitChar ≠ dollar := by decide
  have hdecimal {b : UInt8} (hb : b ∈ word) (hne : b ≠ underscore) :
      isDigit b = true ∧ isSolid b = true ∧ b ≠ dollar := by
    obtain ⟨d, hd, hcased⟩ := (h.mem hb).resolve_left hne
    rw [Cased, (hall d hd).1, or_self] at hcased
    exact hcased ▸ (hall d hd).2
  cases word with
  | nil =>
    obtain ⟨ds, hne, hnone, -⟩ := h
    exact absurd (List.forall₂_nil_right_iff.1 hnone) hne
  | cons b word =>
    obtain ⟨hdigit, hsolid, hdollar⟩ := hdecimal (.head _) (by simpa using hhead)
    -- A number may start with a zero, but no radix follows it.
    have hradix : zeroRadix? (word ++ rest) = none := by
      refine zeroRadix?_eq_none fun c hc => ?_
      cases word with
      | nil => exact isLetter_of_continuesName (hrest c hc)
      | cons e word =>
        obtain rfl : e = c := by simpa using hc
        by_cases he : e = underscore
        · subst he
          decide
        · exact isLetter_of_isDigit (hdecimal (by simp) he).1
    refine ⟨gap_of_isSolid hsolid _, ?_⟩
    rw [List.cons_append, lex_of_isDigit hdigit, number, if_neg hdollar]
    simp only [hradix, ite_self]
    exact hdigits

/-- A number after the mark of its radix. -/
theorem Numeral.lex_radix {mark : List Char} (hmark : (mark, radix) ∈ radixMarks)
    (h : Numeral radix word n) (hrest : EndsWord rest) :
    gap (bytes mark ++ word ++ rest) = ⟨0, false⟩ ∧
      lex (bytes mark ++ word ++ rest) = ⟨numberOf word n, (bytes mark ++ word).length⟩ := by
  have hbounds : ∀ p ∈ radixMarks, 1 ≤ p.2 ∧ p.2 ≤ 16 := by decide
  have hdigits := h.digits (hbounds _ hmark).1 (hbounds _ hmark).2 (bytes mark) hrest
  rw [List.append_assoc]
  simp only [radixMarks, List.mem_cons, Prod.mk.injEq, List.not_mem_nil, or_false] at hmark
  rcases hmark with ⟨rfl, rfl⟩ | ⟨rfl, rfl⟩ | ⟨rfl, rfl⟩ | ⟨rfl, rfl⟩ | ⟨rfl, rfl⟩
  all_goals exact ⟨gap_of_isSolid (by decide) _, hdigits⟩

/-- A number as it is written in some case. -/
theorem numeral_toDigits (hone : 1 < radix) (hradix : radix ≤ 16) {spell : Char → Char}
    (hspell : ∀ c, spell c = c ∨ spell c = c.toUpper) (n : Nat) :
    Numeral radix (bytes ((Nat.toDigits radix n).map spell)) n := by
  obtain ⟨ds, hds, hdigits, hvalue⟩ := Digits.exists_toDigits hone n
  have hcased (d : Nat) (hd : d ∈ ds) : d < radix ∧ Cased d.digitChar (ofChar (spell d.digitChar)) :=
    ⟨hds d hd, (hspell _).imp (congrArg ofChar) (congrArg ofChar)⟩
  have hfilter : (bytes ((Nat.toDigits radix n).map spell)).filter (· != underscore) =
      ds.map fun d => ofChar (spell d.digitChar) := by
    have hall : ∀ d < 16, ∀ b ∈ [ofChar d.digitChar, ofChar d.digitChar.toUpper], b ≠ underscore := by
      decide +kernel
    rw [hdigits, List.map_map, bytes, List.map_map]
    refine List.filter_eq_self.2 (List.forall_mem_map.2 fun d hd => ?_)
    obtain ⟨hlt, hc⟩ := hcased d hd
    exact bne_iff_ne.2 (hall d (by omega) _ (by simpa [Cased] using hc))
  refine ⟨ds, ?_, ?_, hvalue⟩
  · rintro rfl
    exact Nat.toDigits_ne_nil hdigits
  · rw [hfilter, List.forall₂_map_right_iff]
    exact List.forall₂_same.2 hcased

/-- A hexadecimal number. -/
theorem lex_hex (n : Nat) (hrest : EndsWord rest) :
    gap (bytes ('0' :: 'x' :: Digits.write 16 n) ++ rest) = ⟨0, false⟩ ∧
      lex (bytes ('0' :: 'x' :: Digits.write 16 n) ++ rest) =
        ⟨numberOf (bytes (Digits.write 16 n)) n, (bytes ('0' :: 'x' :: Digits.write 16 n)).length⟩ :=
  (numeral_toDigits (by decide) (by decide) (fun _ => .inr rfl) n).lex_radix
    (by decide : (['0', 'x'], 16) ∈ radixMarks) hrest

theorem Escape.escape? {e : UInt8} (h : Escape e b) : escape? e = some b := by
  cases h with
  | lineFeed | carriageReturn | tab | null | backslash | quote | apostrophe => decide

theorem Quoted.textBytes {content : List UInt8} (h : Quoted content word) (rest : List UInt8) :
    textBytes (word ++ quote :: rest) = ⟨.ok content, word.length + 1⟩ := by
  induction h with
  | nil =>
    rw [List.nil_append, Lexer.textBytes.eq_def]
    rfl
  | plain hquote hbackslash hlineFeed h ih =>
    rw [List.cons_append, Lexer.textBytes.eq_def]
    simp only [hquote, hbackslash, hlineFeed, if_false, ih]
    rfl
  | escaped he h ih =>
    rw [List.cons_append, List.cons_append, Lexer.textBytes.eq_def]
    simp only [show ¬ Ascii.backslash = Ascii.quote by decide,
      show ¬ Ascii.backslash = Ascii.lineFeed by decide, if_true, if_false, he.escape?, ih]
    rfl

/-- A text. -/
theorem Quoted.lex {s : String} (h : Quoted (Utf8.encode s) word) (rest : List UInt8) :
    lex (quote :: word ++ [quote] ++ rest) = ⟨.ok (.text s), (quote :: word ++ [quote]).length⟩ := by
  have hbytes := h.textBytes rest
  have hlex : Lexer.lex (quote :: (word ++ quote :: rest)) = (text (word ++ quote :: rest)).grow 1 := rfl
  rw [List.cons_append, List.cons_append, List.append_assoc, List.singleton_append, hlex, text, hbytes]
  simp only [Utf8.decode?_encode, Lexeme.grow, List.length_cons, List.length_append, List.length_nil]
  rw [Nat.add_comm]

/-- Characters that stand in a text as they are, backslashes and quotes apart. -/
def Printable (cs : List Char) : Prop := ∀ c ∈ cs, 0x20 ≤ c.toNat ∧ c.toNat < 0x7F

theorem Printable.plain (h : Printable cs) : Plain cs := fun c hc => by
  have := h c hc
  omega

/-- A text of such characters. -/
theorem quoted_escape (h : Printable cs) :
    Quoted (Utf8.encode (String.ofList cs)) (bytes (Listing.escape cs)) := by
  rw [Utf8.encode_of_plain (by simpa using h.plain), String.toList_ofList]
  induction cs with
  | nil => exact .nil
  | cons c cs ih =>
    obtain ⟨hc, hcs⟩ := List.forall_mem_cons.1 h
    rw [Listing.escape]
    split
    · rename_i hspecial
      refine .escaped ?_ (ih hcs)
      rcases hspecial with rfl | rfl
      · exact .backslash
      · exact .quote
    · rename_i hspecial
      -- Plain characters are told apart by their bytes.
      have hne (d : Char) (hd : d.toNat < 128) (hcd : c ≠ d) : ofChar c ≠ ofChar d := by
        intro heq
        refine hcd (Char.toNat_inj.1 ?_)
        rw [← toNat_ofChar (show c.toNat < 128 by omega), heq, toNat_ofChar hd]
      exact .plain (hne '"' (by decide) fun h => hspecial (.inr h))
        (hne '\\' (by decide) fun h => hspecial (.inl h))
        (hne '\n' (by decide) (by rintro rfl; simp at hc)) (ih hcs)

/-! ## Marks -/

/-- Bytes that are a mark on their own, whatever follows. -/
def isMark (b : UInt8) : Bool :=
  [0x28, 0x29, 0x5B, 0x5D, 0x2C, 0x3A, 0x2D].contains b

theorem ofPair?_eq_none (h : ∀ p ∈ Symbol.pairs, b ≠ p.1.1) (c : UInt8) :
    Symbol.ofPair? b c = none := by
  refine List.lookup_eq_none_iff.2 fun p hp => ?_
  rw [bne_iff_ne]
  exact fun heq => h p hp (congrArg Prod.fst heq)

/-- A mark. -/
theorem lex_mark (h : isMark b = true) (rest : List UInt8) :
    lex (b :: rest) = ⟨.ok (.symbol (Symbol.ofByte b)), 1⟩ := by
  have hother : (b == lineFeed || b == semicolon) = false ∧ (b == hash) = false ∧
      (isDigit b || b == dollar) = false ∧ (b == quote) = false ∧ (b == apostrophe) = false ∧
      startsName b = false ∧ isGraphic b = true ∧ ∀ p ∈ Symbol.pairs, b ≠ p.1.1 := by
    simp only [isMark, List.contains_iff_mem, List.mem_cons, List.not_mem_nil, or_false] at h
    rcases h with rfl | rfl | rfl | rfl | rfl | rfl | rfl <;> decide
  -- These marks do not start a longer one.
  have hpair : rest.head?.bind (Symbol.ofPair? b) = none := by
    cases rest with
    | nil => rfl
    | cons c rest => exact ofPair?_eq_none hother.2.2.2.2.2.2.2 c
  simp only [lex, hother, Bool.false_eq_true, if_false, symbol, hpair, if_true]

theorem lex_lineFeed (rest : List UInt8) : lex (lineFeed :: rest) = ⟨.ok .lineEnd, 1⟩ := rfl

/-! ## Many tokens -/

theorem gap_of_closed {bytes : List UInt8} {size : Nat} (h : blank bytes = .closed size) :
    gap bytes = ⟨size + (gap (bytes.drop size)).size, (gap (bytes.drop size)).unclosed⟩ := by
  rw [gap]
  split <;> simp_all

/-- Bytes that are passed over, whatever follows them. -/
def Passed (blanks : List UInt8) : Prop :=
  ∀ rest, gap (blanks ++ rest) = ⟨blanks.length + (gap rest).size, (gap rest).unclosed⟩

/-- A space in front makes the gap one byte longer. -/
theorem passed_space (hspace : isSpace b = true) : Passed [b] := by
  intro rest
  have hdrop : ∀ l : List UInt8, l.drop (l.takeWhile isSpace).length = l.dropWhile isSpace := by
    intro l
    calc l.drop (l.takeWhile isSpace).length
        = (l.takeWhile isSpace ++ l.dropWhile isSpace).drop (l.takeWhile isSpace).length := by
          rw [List.takeWhile_append_dropWhile]
      _ = l.dropWhile isSpace := List.drop_left
  have hgap : gap (b :: rest) = ⟨1 + (rest.takeWhile isSpace).length +
      (gap (rest.dropWhile isSpace)).size, (gap (rest.dropWhile isSpace)).unclosed⟩ := by
    have hblank : blank (b :: rest) = .closed (1 + (rest.takeWhile isSpace).length) := by
      rw [blank, if_pos hspace]
    rw [gap_of_closed hblank, Nat.add_comm 1, List.drop_succ_cons, hdrop]
  -- The same gap, taken apart after the spaces at the start.
  have hrest : gap rest = ⟨(rest.takeWhile isSpace).length + (gap (rest.dropWhile isSpace)).size,
      (gap (rest.dropWhile isSpace)).unclosed⟩ := by
    cases rest with
    | nil => simp [gap_nil]
    | cons b rest =>
      by_cases hb : isSpace b = true
      · -- The spaces at the start are one blank.
        have hblank : blank (b :: rest) = .closed ((b :: rest).takeWhile isSpace).length := by
          rw [blank, if_pos hb, List.takeWhile_cons_of_pos hb, List.length_cons, Nat.add_comm]
        rw [gap_of_closed hblank, hdrop]
      · simp [List.takeWhile_cons_of_neg hb, List.dropWhile_cons_of_neg hb]
  rw [List.singleton_append, hgap, hrest, Nat.add_assoc]
  rfl

/-- Bytes that are read as tokens: words, one after the other, and blanks between them. -/
inductive Spells : List UInt8 → List Token → Prop
  | done : Spells [] []
  | blank {blanks rest : List UInt8} {tokens : List Token} (hpassed : Passed blanks)
      (h : Spells rest tokens) : Spells (blanks ++ rest) tokens
  | word {b : UInt8} {tail rest : List UInt8} {token : Token} {tokens : List Token}
      (hgap : gap (b :: tail ++ rest) = ⟨0, false⟩)
      (hlex : lex (b :: tail ++ rest) = ⟨.ok token, (b :: tail).length⟩) (h : Spells rest tokens) :
      Spells (b :: tail ++ rest) (token :: tokens)

/-- What a text stream finds at the start of such bytes: no unclosed comment, the first token, and
    bytes that are read as the others. -/
theorem Spells.lex {bytes : List UInt8} {tokens : List Token} (h : Spells bytes tokens) :
    (gap bytes).unclosed = false ∧
      let lexeme := Lexer.lex (bytes.drop (gap bytes).size)
      lexeme.outcome = .ok (tokens.headD .fileEnd) ∧
        Spells ((bytes.drop (gap bytes).size).drop lexeme.size) tokens.tail := by
  induction h with
  | done => simpa [gap_nil, Lexer.lex] using Spells.done
  | blank hpassed h ih =>
    rw [hpassed, List.drop_length_add_append]
    exact ih
  | @word b tail rest token tokens hgap hlex h ih =>
    rw [hgap, List.drop_zero, hlex]
    refine ⟨rfl, rfl, ?_⟩
    simpa using h

/-! ## Words -/

section Words

variable {rest : List UInt8} {tokens : List Token}

theorem Spells.space (h : Spells rest tokens) : Spells (Ascii.space :: rest) tokens :=
  Spells.blank (passed_space (by decide)) h

theorem Spells.name {cs : List Char} (hname : Text.isName cs = true) (hrest : EndsWord rest)
    (h : Spells rest tokens) : Spells (bytes cs ++ rest) (.name (String.ofList cs) :: tokens) := by
  obtain ⟨_, _, b, tail, hbytes, hstart⟩ := isName_bytes hname
  have hlex := lex_name hname hrest
  rw [hbytes] at hlex ⊢
  exact Spells.word (gap_of_isSolid (isSolid_of_startsName hstart) _) hlex h

theorem Spells.decimal {n : Nat} (hn : n < 2 ^ 63) (hrest : EndsWord rest) (h : Spells rest tokens) :
    Spells (bytes (Nat.toDigits 10 n) ++ rest) (.number (Int64.ofNat n) :: tokens) := by
  have hnumeral : Numeral 10 (bytes ((Nat.toDigits 10 n).map id)) n :=
    numeral_toDigits (by decide) (by decide) (fun _ => .inl rfl) n
  have hdigits : ∀ c ∈ Nat.toDigits 10 n, ofChar c ≠ underscore :=
    Digits.forall_mem_toDigits (by decide) (by decide)
  rw [List.map_id] at hnumeral
  cases hcs : Nat.toDigits 10 n with
  | nil => exact absurd hcs Nat.toDigits_ne_nil
  | cons c cs =>
    rw [hcs] at hnumeral hdigits
    obtain ⟨hgap, hlex⟩ := hnumeral.lex_decimal (by simpa using hdigits c (.head _)) hrest
    rw [numberOf, if_pos hn] at hlex
    exact Spells.word hgap hlex h

theorem Spells.hex {n : Nat} (hn : n < 2 ^ 63) (hrest : EndsWord rest) (h : Spells rest tokens) :
    Spells (bytes ('0' :: 'x' :: Digits.write 16 n) ++ rest) (.number (Int64.ofNat n) :: tokens) := by
  obtain ⟨hgap, hlex⟩ := lex_hex n hrest
  rw [numberOf, if_pos hn] at hlex
  exact Spells.word hgap hlex h

theorem Spells.text {cs : List Char} (hcs : Printable cs) (h : Spells rest tokens) :
    Spells (bytes ('"' :: (Listing.escape cs ++ ['"'])) ++ rest)
      (.text (String.ofList cs) :: tokens) := by
  rw [bytes_cons, bytes_append]
  exact Spells.word (gap_of_isSolid (by decide) _) ((quoted_escape hcs).lex rest) h

theorem Spells.mark {b : UInt8} (hmark : isMark b = true) (h : Spells rest tokens) :
    Spells (b :: rest) (.symbol (Symbol.ofByte b) :: tokens) := by
  refine @Spells.word b [] rest _ tokens (gap_of_isSolid ?_ _) (lex_mark hmark rest) h
  simp only [isMark, List.contains_iff_mem, List.mem_cons, List.not_mem_nil, or_false] at hmark
  rcases hmark with rfl | rfl | rfl | rfl | rfl | rfl | rfl <;> decide

theorem Spells.lineEnd (h : Spells rest tokens) : Spells (lineFeed :: rest) (.lineEnd :: tokens) :=
  @Spells.word lineFeed [] rest _ tokens (gap_of_isSolid (by decide) _) (lex_lineFeed rest) h

end Words

end Lexer

/-! ## Streams -/

namespace TextStream

/-- A stream that was looked at: it holds the first of some tokens, and its rest is read as the
    others.  After the last token comes the end of the text. -/
def Faces (tokens : List Token) (s : TextStream) : Prop :=
  s.held = some (tokens.headD .fileEnd) ∧ Lexer.Spells s.rest tokens.tail

/-- A stream with some tokens ahead, whether it was looked at or not. -/
def Ahead (tokens : List Token) (s : TextStream) : Prop :=
  s.held = none ∧ Lexer.Spells s.rest tokens ∨ s.Faces tokens

variable {tokens : List Token} {s : TextStream}

/-- `peek` gives the tokens that the bytes ahead spell. -/
theorem Ahead.peek (h : s.Ahead tokens) :
    s.peek.1 = .ok (tokens.headD .fileEnd) ∧ s.peek.2.Faces tokens := by
  -- A stream that was not looked at reads one token; the other one has it already.
  rcases h with ⟨hheld, hspells⟩ | hfaces
  · obtain ⟨hclosed, houtcome, hrest⟩ := hspells.lex
    simp only [TextStream.peek, hheld, advance, hclosed, Bool.false_eq_true, if_false]
    refine ⟨houtcome, ?_, hrest⟩
    simp only [houtcome, Except.toOption]
  · simp only [TextStream.peek, hfaces.1]
    exact ⟨trivial, hfaces⟩

theorem Faces.eat {token : Token} (h : s.Faces (token :: tokens)) : s.eat.Ahead tokens :=
  .inl ⟨rfl, h.2⟩

end TextStream

end CartScript
