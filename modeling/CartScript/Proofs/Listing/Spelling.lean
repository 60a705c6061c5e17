import CartScript.Listing.Render
import CartScript.Proofs.Script.Reading

/-!
# Listings as tokens

The text of a listing is a list of entries, one in each line.  Each entry is read as the tokens that
it stands for.
-/

namespace CartScript

namespace Lexer

/-- A text that is read as certain tokens, if no word goes on after it. -/
def Spelled (s : String) (word : List Token) : Prop :=
  ∀ rest tokens, EndsWord rest → Spells rest tokens →
    Spells (Utf8.encode s ++ rest) (word ++ tokens)

/-- A text that is read as certain tokens, whatever follows. -/
def Sealed (s : String) (word : List Token) : Prop :=
  ∀ rest tokens, Spells rest tokens → Spells (Utf8.encode s ++ rest) (word ++ tokens)

variable {s t : String} {x y : List Token}

theorem Sealed.spelled (h : Sealed s x) : Spelled s x := fun rest tokens _ => h rest tokens

theorem Sealed.append_spelled (hs : Sealed s x) (ht : Spelled t y) : Spelled (s ++ t) (x ++ y) := by
  intro rest tokens hrest h
  rw [Utf8.encode_append, List.append_assoc, List.append_assoc]
  exact hs _ _ (ht rest tokens hrest h)

/-- What is sealed ends the word before it, if it starts with no part of a word. -/
theorem Spelled.append_sealed (hs : Spelled s x) {b : UInt8} {bytes : List UInt8}
    (hbytes : Utf8.encode t = b :: bytes) (hb : Ascii.continuesName b = false) (ht : Sealed t y) :
    Sealed (s ++ t) (x ++ y) := by
  intro rest tokens h
  rw [Utf8.encode_append, List.append_assoc, List.append_assoc]
  refine hs _ _ (fun c hc => ?_) (ht rest tokens h)
  rw [hbytes] at hc
  obtain rfl : b = c := by simpa using hc
  exact hb

/-! ## Words and marks -/

theorem spelled_name {s : String} (h : Text.isName s.toList = true) : Spelled s [.name s] := by
  intro rest tokens hrest hspells
  have hname := Spells.name h hrest hspells
  rw [String.ofList_toList] at hname
  rw [Utf8.encode_of_plain (isName_bytes h).1]
  exact hname

theorem spelled_decimal {n : Nat} (hn : n < 2 ^ 63) : Spelled n.repr [.number (Int64.ofNat n)] := by
  intro rest tokens hrest hspells
  have htext : Utf8.encode n.repr = Ascii.bytes (Nat.toDigits 10 n) := by
    rw [Nat.repr_eq_ofList_toDigits, Utf8.encode_of_plain, String.toList_ofList]
    rw [String.toList_ofList]
    exact Digits.forall_mem_toDigits (by decide) (by decide)
  rw [htext]
  exact Spells.decimal hn hrest hspells

/-- The bytes of a hexadecimal number. -/
theorem encode_hex (n : Nat) :
    Utf8.encode ("0x" ++ hex n) = Ascii.bytes ('0' :: 'x' :: Digits.write 16 n) := by
  have hplain : Ascii.Plain ("0x" ++ hex n).toList := by
    simp only [String.toList_append, hex, String.toList_ofList]
    exact List.forall_mem_append.2
      ⟨Ascii.plain_of_all (by decide), Digits.forall_mem_write (by decide)⟩
  rw [Utf8.encode_of_plain hplain]
  simp [hex]

theorem spelled_hex {n : Nat} (hn : n < 2 ^ 63) :
    Spelled ("0x" ++ hex n) [.number (Int64.ofNat n)] := by
  intro rest tokens hrest hspells
  rw [encode_hex]
  exact Spells.hex hn hrest hspells

theorem sealed_mark {s : String} (b : UInt8) (hs : Utf8.encode s = [b]) (hb : isMark b = true) :
    Sealed s [.symbol (Symbol.ofByte b)] := by
  intro rest tokens h
  rw [hs]
  exact Spells.mark hb h

theorem sealed_comma : Sealed ", " [.symbol .comma] := fun _ _ h => Spells.mark (by decide) h.space

theorem sealed_lineFeed : Sealed "\n" [.lineEnd] := fun _ _ h => h.lineEnd

theorem Printable.plain_escape {cs : List Char} (h : Printable cs) :
    Ascii.Plain (Listing.escape cs) := by
  induction cs with
  | nil => simp [Listing.escape, Ascii.Plain]
  | cons c cs ih =>
    obtain ⟨hc, hcs⟩ := List.forall_mem_cons.1 h
    have hchar : c.toNat < 128 := by omega
    rw [Listing.escape]
    split
    · exact List.forall_mem_cons.2 ⟨by decide, List.forall_mem_cons.2 ⟨hchar, ih hcs⟩⟩
    · exact List.forall_mem_cons.2 ⟨hchar, ih hcs⟩

theorem sealed_quote {s : String} (h : Printable s.toList) : Sealed (Listing.quote s) [.text s] := by
  intro rest tokens hspells
  have htext : Utf8.encode (Listing.quote s) =
      Ascii.bytes ('"' :: (Listing.escape s.toList ++ ['"'])) := by
    have hall : Ascii.Plain (Listing.quote s).toList := by
      simp only [Listing.quote, String.toList_append, String.toList_ofList]
      exact List.forall_mem_append.2
        ⟨List.forall_mem_append.2 ⟨Ascii.plain_of_all (by decide), h.plain_escape⟩,
          Ascii.plain_of_all (by decide)⟩
    rw [Utf8.encode_of_plain hall]
    simp [Listing.quote]
  have htoken := Spells.text h hspells
  rw [String.ofList_toList] at htoken
  rw [htext]
  exact htoken

/-- Texts with commas between them. -/
theorem spelled_commas {γ : Type} {text : γ → String} {word : γ → List Token} {x : γ} {xs : List γ}
    (h : ∀ y ∈ x :: xs, Spelled (text y) (word y)) :
    Spelled (", ".intercalate ((x :: xs).map text)) (Parsing.commas ((x :: xs).map word)) := by
  induction xs generalizing x with
  | nil =>
    rw [List.map_cons, List.map_nil, List.map_cons, List.map_nil, Parsing.commas_singleton,
      String.intercalate_singleton]
    exact h x (.head _)
  | cons y xs ih =>
    simp only [List.map_cons] at ih ⊢
    rw [Parsing.commas_cons_cons, String.intercalate_cons_cons, List.append_cons]
    exact ((h x (.head _)).append_sealed rfl (by decide) sealed_comma).append_spelled
      (ih fun z hz => h z (.tail _ hz))

end Lexer

namespace Listing

open Lexer

/-! ## Operands -/

/-- A value whose magnitude can be written. -/
def Writable (value : Int64) : Prop := value.toInt.natAbs < 2 ^ 63

/-- The tokens of a number. -/
def numberWord (value : Int64) : List Token :=
  let magnitude : Token := .number (Int64.ofNat value.toInt.natAbs)
  if value < 0 then [.symbol .minus, magnitude] else [magnitude]

theorem spelled_number {value : Int64} (h : Writable value) (hex : Bool) :
    Spelled (number value hex) (numberWord value) := by
  have hminus : Sealed "-" [.symbol .minus] := sealed_mark 0x2D rfl (by decide)
  have hnegative : value < 0 ↔ value.toInt < 0 := by
    rw [Int64.lt_iff_toInt_lt, Int64.toInt_zero]
  cases hex with
  | true =>
    simp only [number, numberWord, Bool.not_true, Bool.false_eq_true, if_false]
    split
    · have hsplit : "-0x" ++ CartScript.hex value.toInt.natAbs =
          "-" ++ ("0x" ++ CartScript.hex value.toInt.natAbs) := by
        rw [← String.append_assoc]
        rfl
      rw [hsplit]
      exact hminus.append_spelled (spelled_hex h)
    · exact spelled_hex h
  | false =>
    simp only [number, numberWord, Bool.not_false, if_true, Int.toString_eq_repr, Int.repr_eq_if]
    by_cases hvalue : value < 0
    · have hlt := hnegative.1 hvalue
      have hnat : (-value.toInt).toNat = value.toInt.natAbs := by omega
      rw [if_neg (by omega), if_pos hvalue, hnat]
      exact hminus.append_spelled (spelled_decimal h)
    · have hge := mt hnegative.2 hvalue
      have hnat : value.toInt.toNat = value.toInt.natAbs := by omega
      rw [if_pos (by omega), if_neg hvalue, hnat]
      exact spelled_decimal h

/-- The number that a stored address is shown as. -/
def addressValue (raw : Nat) (base : UInt32) : Nat :=
  match Encoding.unpointer? raw base with
  | some offset => if offset ≠ 0 then offset.toNat else raw
  | none => raw

theorem spelled_address {raw : Nat} (hraw : raw < 2 ^ 63) (base : UInt32) :
    Spelled (address raw base) [.number (Int64.ofNat (addressValue raw base))] := by
  have hplain : Spelled (if raw = 0 then "0" else "0x" ++ hex raw) [.number (Int64.ofNat raw)] := by
    split
    · rename_i hzero
      have hdigit : Spelled (Nat.repr 0) [.number (Int64.ofNat 0)] := spelled_decimal (by omega)
      rw [hzero, show "0" = Nat.repr 0 by decide]
      exact hdigit
    · exact spelled_hex hraw
  unfold address addressValue
  cases Encoding.unpointer? raw base with
  | none => exact hplain
  | some offset =>
    by_cases hzero : offset ≠ 0
    · simp only [if_pos hzero]
      exact spelled_hex (Nat.lt_trans offset.toNat_lt (by decide))
    · simp only [if_neg hzero]
      exact hplain

/-- The label of an offset is a name. -/
theorem isName_label (offset : UInt32) : Text.isName (label offset).toList = true := by
  have hdigits : ∀ c ∈ (hexPadded 6 offset.toNat).toList, (c.isAlphanum || c == '_') = true := by
    simp only [hexPadded, String.toList_ofList]
    refine List.forall_mem_append.2 ⟨fun c hc => ?_, Digits.forall_mem_write (by decide)⟩
    rw [List.eq_of_mem_replicate hc]
    rfl
  have htext : (label offset).toList =
      'l' :: ('a' :: 'b' :: 'e' :: 'l' :: '_' :: (hexPadded 6 offset.toNat).toList) := by
    simp [label]
  rw [htext, Text.isName]
  simpa using hdigits

namespace Operand

/-- Operands that can be written. -/
def Writable : Operand → Prop
  | .number value _ => Listing.Writable value
  | .address raw => raw < 2 ^ 63
  | .label _ => True
  | .text content => Printable content.toList
  | .list values _ => values ≠ [] ∧ ∀ value ∈ values, Listing.Writable value

/-- The tokens of an operand. -/
def word (base : UInt32) : Operand → List Token
  | .number value _ => numberWord value
  | .address raw => [.number (Int64.ofNat (addressValue raw base))]
  | .label offset => [.name (Listing.label offset)]
  | .text content => [.text content]
  | .list values _ =>
    .symbol .openBracket :: (Parsing.commas (values.map numberWord) ++ [.symbol .closeBracket])

theorem spelled {operand : Operand} (h : operand.Writable) (base : UInt32) :
    Spelled (operand.render base) (operand.word base) := by
  cases operand with
  | number value hex => exact spelled_number h hex
  | address raw => exact spelled_address h base
  | label offset => exact spelled_name (isName_label offset)
  | text content => exact (sealed_quote h).spelled
  | list values hex =>
    obtain ⟨hne, hvalues⟩ := h
    obtain ⟨value, values, rfl⟩ := List.exists_cons_of_ne_nil hne
    have hitems := spelled_commas fun v hv => spelled_number (hvalues v hv) hex
    have hopen : Sealed "[" [.symbol .openBracket] := sealed_mark 0x5B rfl (by decide)
    have hclose : Sealed "]" [.symbol .closeBracket] := sealed_mark 0x5D rfl (by decide)
    simp only [render, Listing.list, word]
    rw [← List.cons_append, ← List.singleton_append]
    exact ((hopen.append_spelled hitems).append_sealed rfl (by decide) hclose).spelled

end Operand

/-! ## Entries -/

/-- What stands in one line of a listing. -/
inductive Entry where
  | blank
  | org (offset : UInt32)
  | label (offset : UInt32)
  | code (line : Line)
  deriving Repr, DecidableEq, Inhabited

/-- The entries of a decoded code. -/
def Line.entries (labels : List UInt32) (start : UInt32) (line : Line) : List Entry :=
  if line.offset ≠ start ∧ labels.contains line.offset then [.label line.offset, .code line]
  else [.code line]

/-- The entries of a block. -/
def Block.entries (labels : List UInt32) (block : Block) : List Entry :=
  .org block.start :: .label block.start :: block.lines.flatMap (Line.entries labels block.start)

/-- The entries of a listing. -/
def entries (labels : List UInt32) (blocks : List Block) : List Entry :=
  List.intercalate [.blank] (blocks.map (Block.entries labels))

namespace Entry

def text (base : UInt32) : Entry → String
  | .blank => ""
  | .org offset => "ORG 0x" ++ hex offset.toNat
  | .label offset => Listing.label offset ++ ":"
  | .code line => line.render base

/-- The tokens of a line. -/
def word (base : UInt32) : Entry → List Token
  | .blank => []
  | .org offset => [.name "ORG", .number (Int64.ofNat offset.toNat)]
  | .label offset => [.name (Listing.label offset), .symbol .colon]
  | .code line =>
    if line.code.params.isEmpty then [.name line.code.name]
    else .name line.code.name :: .symbol .openParen ::
      (Parsing.commas (line.operands.map (Operand.word base)) ++ [.symbol .closeParen])

/-- Lines that can be written. -/
def Writable : Entry → Prop
  | .code line => Text.isName line.code.name.toList = true ∧
      line.operands.length = line.code.params.length ∧ ∀ operand ∈ line.operands, operand.Writable
  | _ => True

/-- A code with parameters has operands. -/
theorem operands_ne_nil {line : Line} (hcount : line.operands.length = line.code.params.length)
    (hparams : ¬ line.code.params.isEmpty = true) : line.operands ≠ [] := by
  intro hnil
  rw [hnil, List.length_nil] at hcount
  exact hparams (List.isEmpty_iff_length_eq_zero.2 hcount.symm)

theorem spelled {entry : Entry} (h : entry.Writable) (base : UInt32) :
    Spelled (entry.text base) (entry.word base) := by
  cases entry with
  | blank => exact fun _ _ _ h => h
  | org offset =>
    have hspace : Sealed " " [] := fun _ _ h => h.space
    have hname : Spelled "ORG" [.name "ORG"] := spelled_name (by decide)
    have hsplit : "ORG 0x" ++ hex offset.toNat = "ORG" ++ " " ++ ("0x" ++ hex offset.toNat) := by
      rw [← String.append_assoc]
      rfl
    rw [text, hsplit]
    exact (hname.append_sealed rfl (by decide) hspace).append_spelled
      (spelled_hex (Nat.lt_trans offset.toNat_lt (by decide)))
  | label offset =>
    have hcolon : Sealed ":" [.symbol .colon] := sealed_mark 0x3A rfl (by decide)
    exact ((spelled_name (isName_label offset)).append_sealed rfl (by decide) hcolon).spelled
  | code line =>
    obtain ⟨hname, hcount, hoperands⟩ := h
    simp only [text, word, Line.render]
    split
    · exact spelled_name hname
    · rename_i hparams
      obtain ⟨operand, operands, hsplit⟩ :=
        List.exists_cons_of_ne_nil (operands_ne_nil hcount hparams)
      rw [hsplit] at hoperands ⊢
      have hargs := spelled_commas fun o ho => Operand.spelled (hoperands o ho) base
      have hopen : Sealed "(" [.symbol .openParen] := sealed_mark 0x28 rfl (by decide)
      have hclose : Sealed ")" [.symbol .closeParen] := sealed_mark 0x29 rfl (by decide)
      exact ((((spelled_name hname).append_sealed rfl (by decide) hopen).append_spelled
        hargs).append_sealed rfl (by decide) hclose).spelled

end Entry

/-- The text of a listing consists of its entries. -/
theorem render_eq (base : UInt32) (labels : List UInt32) (blocks : List Block) :
    render base labels blocks = joinLines ((entries labels blocks).map (Entry.text base)) := by
  have hblock : ∀ block : Block,
      block.texts base labels = (block.entries labels).map (Entry.text base) := by
    intro block
    have hline : ∀ line : Line, line.texts base labels block.start =
        (line.entries labels block.start).map (Entry.text base) := by
      intro line
      unfold Line.texts Line.entries
      split <;> rfl
    simp only [Block.texts, Block.entries, List.map_cons, List.map_flatMap,
      ← funext (f := Line.texts base labels block.start) hline]
    rfl
  have happend : ∀ xs ys : List String, joinLines (xs ++ ys) = joinLines xs ++ joinLines ys := by
    intro xs ys
    rw [← String.toList_inj]
    simp [joinLines]
  induction blocks with
  | nil => rfl
  | cons block blocks ih =>
    cases blocks with
    | nil => simp [render, entries, hblock, List.intercalate]
    | cons other blocks =>
      simp only [render, entries, List.map_cons, hblock] at ih ⊢
      rw [String.intercalate_cons_cons, ih, List.intercalate_cons_cons, List.map_append,
        List.map_append, happend, happend]
      rfl

/-- The tokens of entries, each of which ends its line. -/
def words (base : UInt32) (entries : List Entry) : List Token :=
  entries.flatMap fun entry => entry.word base ++ [.lineEnd]

/-- The text of a listing is read as the tokens of its entries. -/
theorem spells_entries {base : UInt32} {entries : List Entry} (h : ∀ e ∈ entries, e.Writable) :
    Spells (Utf8.encode (joinLines (entries.map (Entry.text base)))) (words base entries) := by
  induction entries with
  | nil => exact Spells.done
  | cons entry entries ih =>
    obtain ⟨hentry, hentries⟩ := List.forall_mem_cons.1 h
    have hline := (Entry.spelled hentry base).append_sealed rfl (by decide) sealed_lineFeed
    have hspells := hline _ _ (ih hentries)
    have hjoin : joinLines ((entry :: entries).map (Entry.text base)) =
        entry.text base ++ "\n" ++ joinLines (entries.map (Entry.text base)) := by
      rw [← String.toList_inj]
      simp [joinLines]
    rw [hjoin, Utf8.encode_append]
    exact hspells

end Listing

end CartScript
