import CartScript.Proofs.Listing.Operands
import CartScript.Proofs.Script.Alone

/-!
# Numbers and texts are read back

What a listing shows for a number, or for the bytes of a text, is read as something that gives the same
bytes.  There is one exception: the least number of eight bytes is shown with a magnitude that is
too large for a number of a script.
-/

namespace CartScript

namespace Listing

/-! ## Numbers -/

/-- All magnitudes can be written but that of the least number of eight bytes. -/
theorem writable_readInt_iff {bytes : List UInt8} (hle : bytes.length ≤ 8) (signed : Bool) :
    Writable (Encoding.readInt bytes signed) ↔ bytes ≠ [0, 0, 0, 0, 0, 0, 0, 0x80] := by
  constructor
  · rintro hwritable rfl
    revert hwritable
    unfold Writable
    cases signed <;> decide
  · intro hne
    by_cases hshort : bytes.length ≤ 7
    · exact Encoding.writable_readInt hshort signed
    obtain hlength : bytes.length = 8 := by omega
    have hcapacity : Bytes.capacity 8 = 2 ^ 64 := rfl
    have hraw := Encoding.readUnsigned_lt hle
    have hvalue := Encoding.toInt_readInt hle signed
    have hleast := (Encoding.readInt bytes signed).le_toInt
    have hgreatest := (Encoding.readInt bytes signed).toInt_lt
    rw [hlength, hcapacity] at hraw hvalue
    -- The bytes of a word determine it, so no others hold the least number.
    have hother : Encoding.readUnsigned bytes ≠ 2 ^ 63 := by
      intro hword
      rw [Encoding.readUnsigned, List.take_of_length_le hle] at hword
      have hbytes := Bytes.ofNat_toNat bytes
      rw [hword, hlength] at hbytes
      exact hne (hbytes.symm.trans (by decide))
    unfold Writable
    omega

/-- The text of the number in some bytes is read without a fault and is an expression with that number
    as its value, and the number is written as the bytes. -/
structure NumberReadsBack (bytes : List UInt8) (signed hex : Bool) : Prop where
  lexes : ∀ reading ∈ Lexer.readings (number (Encoding.readInt bytes signed) hex),
    ∃ token, reading = .ok token
  parses : ∃ e, Expr.ofText? (number (Encoding.readInt bytes signed) hex) = some e ∧
    ∀ source here, e.eval source here = .ok (.known (Encoding.readInt bytes signed))
  encodes : Encoding.int (Encoding.readInt bytes signed) bytes.length = .ok bytes

theorem numberReadsBack_of_writable {bytes : List UInt8} (hpos : 1 ≤ bytes.length)
    (hle : bytes.length ≤ 8) {signed : Bool} (h : Writable (Encoding.readInt bytes signed))
    (hex : Bool) : NumberReadsBack bytes signed hex where
  lexes := by
    rw [Lexer.readings_of_spelled (spelled_number h hex)]
    intro reading hreading
    rcases List.mem_append.1 hreading with hreading | hreading
    · obtain ⟨token, -, rfl⟩ := List.mem_map.1 hreading
      exact ⟨token, rfl⟩
    · exact ⟨.fileEnd, List.mem_singleton.1 hreading⟩
  parses := ⟨numberExpr _,
    Expr.ofText?_of_spelled (spelled_number h hex) (isExpr_numberWord (by decide) _),
    eval_numberExpr h⟩
  encodes := Encoding.int_readInt hpos hle signed

/-- The text of the least number is no expression. -/
theorem ofText?_least (signed hex : Bool) :
    Expr.ofText? (number (Encoding.readInt [0, 0, 0, 0, 0, 0, 0, 0x80] signed) hex) = none := by
  cases signed <;> cases hex <;> decide +kernel

theorem not_numberReadsBack (signed hex : Bool) :
    ¬NumberReadsBack [0, 0, 0, 0, 0, 0, 0, 0x80] signed hex := by
  rintro ⟨-, ⟨e, he, -⟩, -⟩
  rw [ofText?_least] at he
  simp at he

/-- The bytes whose number is read back: all but those of the least number of eight bytes. -/
theorem number_readsBack_iff {bytes : List UInt8} (hpos : 1 ≤ bytes.length) (hle : bytes.length ≤ 8)
    (signed hex : Bool) :
    NumberReadsBack bytes signed hex ↔ bytes ≠ [0, 0, 0, 0, 0, 0, 0, 0x80] := by
  constructor
  · rintro h rfl
    exact not_numberReadsBack signed hex h
  · intro hne
    exact numberReadsBack_of_writable hpos hle ((writable_readInt_iff hle signed).2 hne) hex

/-- Minus two in two bytes, and the greatest number of eight bytes. -/
theorem number_readsBack_greatest_and_negative :
    1 ≤ [0xFE, (0xFF : UInt8)].length ∧ [0xFE, (0xFF : UInt8)].length ≤ 8 ∧
      NumberReadsBack [0xFE, 0xFF] true true ∧
      NumberReadsBack [0xFF, 0xFF, 0xFF, 0xFF, 0xFF, 0xFF, 0xFF, 0x7F] true false :=
  ⟨by decide, by decide, (number_readsBack_iff (by decide) (by decide) true true).2 (by decide),
    (number_readsBack_iff (by decide) (by decide) true false).2 (by decide)⟩

/-- The least number of eight bytes is shown as a minus sign and digits that are refused. -/
theorem not_readsBack_least :
    number (Encoding.readInt [0, 0, 0, 0, 0, 0, 0, 0x80] true) false = "-9223372036854775808" ∧
      Lexer.readings "-9223372036854775808" = [.ok (.symbol .minus),
        .error (.malformedNumber "9223372036854775808" .tooLarge), .ok .fileEnd] ∧
      ∀ signed hex, Expr.ofText?
        (number (Encoding.readInt [0, 0, 0, 0, 0, 0, 0, 0x80] signed) hex) = none ∧
        ¬NumberReadsBack [0, 0, 0, 0, 0, 0, 0, 0x80] signed hex := by
  exact ⟨by decide +kernel, by decide +kernel, fun signed hex =>
    ⟨ofText?_least signed hex, not_numberReadsBack signed hex⟩⟩

/-! ## Texts -/

theorem numberWord_ofNat {n : Nat} (hn : n < 2 ^ 63) :
    numberWord (Int64.ofNat n) = [.number (Int64.ofNat n)] := by
  have hvalue : (Int64.ofNat n).toInt = n := Int64.toInt_ofNat_of_lt hn
  have hpos : ¬Int64.ofNat n < 0 := by
    rw [Int64.lt_iff_toInt_lt, hvalue, Int64.toInt_zero]
    omega
  simp only [numberWord, if_neg hpos, hvalue, Int.natAbs_natCast]

/-- The tokens of a list that has the bytes as its numbers. -/
def byteWord (bytes : List UInt8) : List Token :=
  .symbol .openBracket ::
    (Parsing.commas (bytes.map fun b => [.number (Int64.ofNat b.toNat)]) ++ [.symbol .closeBracket])

theorem word_bytes (base : UInt32) (bytes : List UInt8) :
    (Operand.list (bytes.map fun b => Int64.ofNat b.toNat) true).word base = byteWord bytes := by
  have hbyte : ∀ b : UInt8, numberWord (Int64.ofNat b.toNat) = [.number (Int64.ofNat b.toNat)] :=
    fun b => numberWord_ofNat (Nat.lt_trans b.toNat_lt (by decide))
  simp only [Operand.word, byteWord, List.map_map, Function.comp_def, hbyte]

end Listing

/-- Parts that are put into zeros as bytes at a place, whatever values the names have and wherever the
    statement stands. -/
def Layout.Puts (layout : Layout) (base : UInt32) (start : Nat) (bytes : List UInt8) : Prop :=
  ∀ (symbols : Symbols) (here : UInt32) (fields : List Assembly.PlacedField),
    fields.map Assembly.PlacedField.toField = layout.fields →
      (∀ f ∈ fields, ∃ patch, f.resolve symbols here base = .ok patch) ∧
        ∀ behind, Patch.render (start + bytes.length + behind)
            (layout.fixed ++ Assembly.PlacedField.patches symbols here base fields) =
          List.replicate start 0 ++ bytes ++ List.replicate behind 0

theorem Param.proper_of_text {param : Param} (hkind : param.kind = .text) (hpos : 1 ≤ param.length) :
    param.Proper where
  length_pos := hpos
  width := by rw [hkind]; rfl
  element := by rw [hkind]; decide
  array count signed hex harray := by simp [hkind] at harray

namespace Listing

/-- The text for the bytes of a parameter is read without a fault as a text or as a list of the bytes.
    The argument that it stands for suits the parameter, and is put in its place as the bytes. -/
structure TextReadsBack (code : Code) (param : Param) (base : UInt32) (bytes : List UInt8)
    (text : String) : Prop where
  lexes : ∃ word : List Token, Lexer.readings text = word.map .ok ++ [.ok .fileEnd] ∧
    ((∃ content, word = [.text content]) ∨ word = byteWord bytes)
  parses : ∃ arg,
    (∀ limit, 3 ≤ limit → bytes.length ≤ limit → Arg.ofText? limit text = some arg) ∧
      code.checkArg param arg = .ok () ∧
      ∃ layout, Layout.ofArg code param arg = .ok layout ∧ layout.Puts base param.offset bytes

/-- The operand for the bytes of a text is a text or a list of the bytes. -/
theorem word_plainOperand_text {param : Param} (hkind : param.kind = .text) (bytes : List UInt8)
    (base : UInt32) :
    (∃ content, (plainOperand param bytes).word base = [.text content]) ∨
      (plainOperand param bytes).word base = byteWord bytes := by
  simp only [plainOperand, hkind]
  split
  · rename_i content hcontent
    exact .inl ⟨content, rfl⟩
  · exact .inr (word_bytes base bytes)

/-- The parts for an operand are put in the place of its parameter. -/
theorem Operand.Shows.puts {param : Param} (code : Code) (hproper : param.Proper)
    (hnarrow : param.numberWidth ≤ 7) (hkind : param.kind.isPointer = false) {bytes : List UInt8}
    (hlength : bytes.length = param.length) {base : UInt32} {operand : Operand}
    (h : Operand.Shows base [] param bytes operand) :
    ∃ layout, Layout.ofArg code param (operand.arg base) = .ok layout ∧
      layout.Puts base param.offset bytes := by
  -- The bytes of the parameter with zeros around them.
  have hlayout : ∀ (symbols : Symbols) (behind : Nat), ∃ layout,
      Layout.ofArg code param (operand.arg base) = .ok layout ∧
        layout.Shows symbols base
          (List.replicate param.offset 0 ++ bytes ++ List.replicate behind 0)
          fun k => Interval.contains ⟨param.offset, param.stop⟩ k = true := by
    intro symbols behind
    have hslice : paramBytes param (List.replicate param.offset 0 ++ bytes ++
        List.replicate behind 0) = bytes := by
      rw [paramBytes, List.append_assoc, List.drop_left' List.length_replicate,
        List.take_left' hlength]
    refine Operand.Shows.layout code hproper hnarrow ?_ (fun hpointer => ?_)
      (fun offset hoffset => absurd hoffset List.not_mem_nil) (hslice.symm ▸ h)
    · simp only [List.length_append, List.length_replicate, Param.stop]
      omega
    · rw [hkind] at hpointer
      simp at hpointer
  obtain ⟨layout, hok, -⟩ := hlayout {} 0
  refine ⟨layout, hok, fun symbols here fields hfields => ⟨fun f hf => ?_, fun behind => ?_⟩⟩
  · obtain ⟨same, hsame, hshows⟩ := hlayout symbols 0
    obtain rfl := Except.ok.inj (hok.symm.trans hsame)
    obtain ⟨patch, hpatch, -⟩ :=
      (hshows.fields _ (hfields ▸ List.mem_map_of_mem hf)).resolve here
    exact ⟨patch, hpatch⟩
  · obtain ⟨same, hsame, hshows⟩ := hlayout symbols behind
    obtain rfl := Except.ok.inj (hok.symm.trans hsame)
    have hrender := Layout.Shows.render (hshows.mono ?_) hfields here
    · simpa only [List.length_append, List.length_replicate] using hrender
    · rintro k ⟨hk, hne⟩
      -- Around the parameter there are only zeros.
      rw [Interval.contains_iff]
      simp only [List.length_append, List.length_replicate] at hk
      by_contra hout
      refine hne ?_
      grind [Param.stop]

/-- The bytes of a text are read back, whatever they are. -/
theorem text_readsBack (code : Code) {param : Param} (hkind : param.kind = .text)
    (hpos : 1 ≤ param.length) {bytes : List UInt8} (hlength : bytes.length = param.length)
    (mode : Mode) (base : UInt32) (s : State) :
    TextReadsBack code param base bytes ((s.operand mode base param bytes).1.render base) := by
  have hproper := Param.proper_of_text hkind hpos
  have hnarrow : param.numberWidth ≤ 7 := by simp [Param.numberWidth, hkind]
  have hpointer : param.kind.isPointer = false := by rw [hkind]; rfl
  have hoperand : (s.operand mode base param bytes).1 = plainOperand param bytes := by
    simp only [State.operand, hkind]
  have hshows : Operand.Shows base [] param bytes (plainOperand param bytes) :=
    Operand.shows_plainOperand base [] hproper hlength
  have hwritable := hshows.writable hproper hnarrow hlength
  have hspelled := Operand.spelled hwritable base
  have hcount := hshows.count_le hproper hlength
  rw [hoperand]
  refine ⟨⟨_, Lexer.readings_of_spelled hspelled, word_plainOperand_text hkind bytes base⟩,
    (plainOperand param bytes).arg base, fun limit hthree hlimit => ?_,
    hshows.checkArg hlength code, hshows.puts code hproper hnarrow hpointer hlength⟩
  exact Arg.ofText?_of_spelled (by omega) hspelled
    (Operand.isArg hthree hwritable (by omega) base)

/-- Four bytes for a text. -/
def Sample.title : Param := { name := "title", offset := 2, length := 4, kind := .text }

/-- A code with a text. -/
def Sample.sign : Code :=
  { name := "SIGN", id := 7, idLength := 2, length := 8, params := [Sample.title] }

/-- A quote and a backslash before a zero, and a zero among bytes that are no text. -/
theorem text_readsBack_title :
    Sample.title.kind = .text ∧ 1 ≤ Sample.title.length ∧
      plainOperand Sample.title [0x61, 0x22, 0x5C, 0] = .text "a\"\\" ∧
      TextReadsBack Sample.sign Sample.title 0 [0x61, 0x22, 0x5C, 0]
        ((({ log := {} } : State).operand .linked 0 Sample.title [0x61, 0x22, 0x5C, 0]).1.render 0) ∧
      plainOperand Sample.title [0x61, 0, 0x22, 0xC3] = .list [0x61, 0, 0x22, 0xC3] true ∧
      TextReadsBack Sample.sign Sample.title 0 [0x61, 0, 0x22, 0xC3]
        ((({ log := {} } : State).operand .linked 0 Sample.title [0x61, 0, 0x22, 0xC3]).1.render 0) :=
  ⟨rfl, by decide, by decide, text_readsBack Sample.sign rfl (by decide) rfl .linked 0 { log := {} },
    by decide, text_readsBack Sample.sign rfl (by decide) rfl .linked 0 { log := {} }⟩

end Listing

end CartScript
