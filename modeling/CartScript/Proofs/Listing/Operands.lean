import CartScript.Proofs.Assembly.Footprint
import CartScript.Proofs.Assembly.Still
import CartScript.Proofs.Listing.Statements

/-!
# Operands give their bytes back

The argument that an operand is read as is encoded as the bytes that the operand was decoded from.
-/

namespace CartScript

/-! ## Values -/

namespace Encoding

/-- A number of few bytes can be written out. -/
theorem writable_readInt {bytes : List UInt8} (hle : bytes.length ≤ 7) (signed : Bool) :
    Listing.Writable (readInt bytes signed) := by
  have hraw := readUnsigned_lt (Nat.le_trans hle (by decide))
  have hcapacity : Bytes.capacity bytes.length ≤ 2 ^ 56 := Bytes.capacity_le_capacity hle
  have hvalue := toInt_readInt (Nat.le_trans hle (by decide)) signed
  unfold Listing.Writable
  omega

end Encoding

/-! ## Texts -/

namespace Encoding

/-- A text that was read is plain, and is written as the same bytes. -/
theorem text_of_readText? {bytes : List UInt8} {content : String}
    (h : readText? bytes = some content) :
    Lexer.Printable content.toList ∧ text (Utf8.encode content) bytes.length = .ok bytes := by
  simp only [readText?] at h
  split at h
  · rename_i hcheck
    obtain rfl := Option.some.inj h
    simp only [Bool.and_eq_true, List.all_eq_true, beq_iff_eq] at hcheck
    obtain ⟨hpadding, hcontent⟩ := hcheck
    have hbyte : ∀ b ∈ bytes.takeWhile (· != 0), 0x20 ≤ b.toNat ∧ b.toNat < 0x7F := by
      intro b hb
      have hprintable := hcontent b hb
      simp only [isPrintable, Bool.and_eq_true, decide_eq_true_eq, UInt8.le_iff_toNat_le,
        UInt8.lt_iff_toNat_lt] at hprintable
      exact hprintable
    have hprintable : Lexer.Printable (Ascii.toText (bytes.takeWhile (· != 0))).toList := by
      intro c hc
      rw [Ascii.toText, String.toList_ofList] at hc
      obtain ⟨b, hb, rfl⟩ := List.mem_map.1 hc
      have := hbyte b hb
      rw [Ascii.toNat_toChar (by omega)]
      exact this
    have hencode : Utf8.encode (Ascii.toText (bytes.takeWhile (· != 0))) =
        bytes.takeWhile (· != 0) := by
      refine Utf8.encode_toText fun b hb => ?_
      have := hbyte b hb
      omega
    -- After the first zero there are only zeros, which is what the text is filled up with.
    have hzeros : bytes.dropWhile (· != 0) =
        List.replicate (bytes.dropWhile (· != 0)).length 0 :=
      List.eq_replicate_iff.2 ⟨rfl, hpadding⟩
    have hlength : (bytes.takeWhile (· != 0)).length + (bytes.dropWhile (· != 0)).length =
        bytes.length := by
      rw [← List.length_append, List.takeWhile_append_dropWhile]
    refine ⟨hprintable, ?_⟩
    rw [hencode, text, if_neg (by omega), Except.ok.injEq,
      show bytes.length - (bytes.takeWhile (· != 0)).length = (bytes.dropWhile (· != 0)).length by
        omega, ← hzeros, List.takeWhile_append_dropWhile]
  · simp at h

end Encoding

namespace Listing

/-! ## Expressions -/

/-- A number that was written out has its value. -/
theorem eval_numberExpr {value : Int64} (h : Writable value) (source : String → Option Int64)
    (here : UInt32) : (numberExpr value).eval source here = .ok (.known value) := by
  have hmagnitude : (Int64.ofNat value.toInt.natAbs).toInt = value.toInt.natAbs :=
    Int64.toInt_ofNat_of_lt h
  unfold Writable at h
  unfold numberExpr
  -- A negative number is written as its magnitude with a minus before it.
  by_cases hnegative : value < 0
  · have hneg : -Int64.ofNat value.toInt.natAbs = value := by
      rw [Int64.lt_iff_toInt_lt, Int64.toInt_zero] at hnegative
      rw [← Int64.toInt_inj, Int64.toInt_neg, hmagnitude, Int.bmod_eq_of_le (by omega) (by omega)]
      omega
    simp only [if_pos hnegative, Expr.eval, Expr.Machine.run, Expr.Machine.step, Expr.Machine.push,
      Expr.applyUnary, Except.map, Expr.Machine.result, hneg]
  · have hpos : Int64.ofNat value.toInt.natAbs = value := by
      rw [Int64.lt_iff_toInt_lt, Int64.toInt_zero] at hnegative
      rw [← Int64.toInt_inj, hmagnitude]
      omega
    simp only [if_neg hnegative, Expr.constant, Expr.eval, Expr.Machine.run, Expr.Machine.step,
      Expr.Machine.push, Expr.Machine.result, hpos]

theorem resolve_numberExpr {value : Int64} (h : Writable value) (symbols : Symbols) (here : UInt32) :
    symbols.resolve (numberExpr value) here = .ok value :=
  Symbols.resolve_of_known (.refl _) (eval_numberExpr h _ here)

theorem resolve_constant (value : Int64) (symbols : Symbols) (here : UInt32) :
    symbols.resolve (.constant value) here = .ok value := rfl

/-- A label has its value. -/
theorem resolve_label {symbols : Symbols} {name : String} {value : Int64}
    (h : symbols.source name = some value) (here : UInt32) :
    symbols.resolve ⟨[.label name]⟩ here = .ok value := by
  refine Symbols.resolve_of_known (.refl _) ?_
  simp only [Expr.eval, Expr.Machine.run, Expr.Machine.step, h, Expr.Machine.push,
    Expr.Machine.result]

/-! ## Addresses -/

/-- Zero, and what is no offset, stays as it is. -/
theorem pointer_of_ge {n : Nat} (hn : n = 0 ∨ Encoding.pointerLimit ≤ n) (hlt : n < 2 ^ 63)
    (base : UInt32) : Encoding.pointer (Int64.ofNat n) base = Int64.ofNat n := by
  have hvalue : (Int64.ofNat n).toInt = n := Int64.toInt_ofNat_of_lt hlt
  rw [Encoding.pointer, if_neg]
  rw [Int64.lt_iff_toInt_lt, hvalue, Int64.toInt_zero]
  omega

/-- The offset in an address is taken to the address. -/
theorem pointer_of_unpointer? {raw : Nat} {base offset : UInt32}
    (h : Encoding.unpointer? raw base = some offset) (hne : offset ≠ 0) :
    Encoding.pointer (Int64.ofNat offset.toNat) base = Int64.ofNat raw := by
  unfold Encoding.unpointer? at h
  split at h
  · rename_i hin
    have hbase := base.toNat_lt
    unfold Encoding.pointerLimit at hin
    obtain rfl := Option.some.inj h
    have hoffset : (UInt32.ofNat (raw - base.toNat)).toNat = raw - base.toNat :=
      UInt32.toNat_ofNat_of_lt' (show _ < 2 ^ 32 by omega)
    have hpos : raw - base.toNat ≠ 0 := fun hzero => hne (by rw [hzero]; rfl)
    have hsum : Int64.ofNat (UInt32.ofNat (raw - base.toNat)).toNat + Int64.ofNat base.toNat =
        Int64.ofNat raw := by
      rw [← Int64.toInt_inj, Encoding.toInt_ofNat_add_ofNat, hoffset,
        Int64.toInt_ofNat_of_lt (by omega)]
      omega
    rw [Encoding.pointer, if_pos, hsum]
    rw [Int64.lt_iff_toInt_lt, Encoding.toInt_ofNat_toNat, hoffset, Int64.toInt_zero,
      Encoding.pointerLimit]
    omega
  · simp at h

/-- The number that a stored address is shown as is taken to the address. -/
theorem pointer_addressValue {raw : Nat} (hraw : raw = 0 ∨ Encoding.pointerLimit ≤ raw)
    (hlt : raw < 2 ^ 63) (base : UInt32) :
    Encoding.pointer (Int64.ofNat (addressValue raw base)) base = Int64.ofNat raw := by
  unfold addressValue
  cases hoffset : Encoding.unpointer? raw base with
  -- An address outside of the image is shown as it is, and it is too high to be taken for an
  -- offset.
  | none => exact pointer_of_ge hraw hlt base
  | some offset =>
    by_cases hne : offset ≠ 0
    · simp only [if_pos hne]
      exact pointer_of_unpointer? hoffset hne
    · simp only [if_neg hne]
      exact pointer_of_ge hraw hlt base

end Listing

/-- The width of the numbers in the bytes of a parameter.  Bytes that are no text are numbers, too. -/
def Param.numberWidth (p : Param) : Nat :=
  match p.kind with
  | .int _ _ | .pointer _ | .struct _ _ => p.length
  | .text => 1
  | .array count _ _ => p.length / count

namespace Listing

/-! ## Operands -/

variable {count i width : Nat} {values : List Int64} {bytes slice : List UInt8}

theorem length_paramBytes {param : Param} (h : param.stop ≤ bytes.length) :
    (paramBytes param bytes).length = param.length := by
  unfold Param.stop at h
  rw [paramBytes, List.length_take, List.length_drop]
  omega

/-- Numbers of a width that were read one after the other. -/
structure ReadAs (width : Nat) (slice : List UInt8) (values : List Int64) : Prop where
  length : values.length * width = slice.length
  value : ∀ i (hi : i < values.length),
    ∃ signed, values[i] = Encoding.readInt ((slice.drop (i * width)).take width) signed

theorem getElem_elements (hi : i < (elements width count bytes).length) :
    (elements width count bytes)[i] = (bytes.drop (i * width)).take width := by
  induction count generalizing bytes i with
  | zero => simp [elements] at hi
  | succ count ih =>
    cases i with
    | zero => simp [elements]
    | succ i =>
      simp only [elements, List.getElem_cons_succ]
      rw [ih, List.drop_drop, Nat.succ_mul, Nat.add_comm]

theorem length_elements (width count : Nat) (bytes : List UInt8) :
    (elements width count bytes).length = count := by
  induction count generalizing bytes with
  | zero => rfl
  | succ count ih => simp [elements, ih]

theorem readAs_elements (h : count * width = slice.length) (signed : Bool) :
    ReadAs width slice ((elements width count slice).map (Encoding.readInt · signed)) where
  length := by rw [List.length_map, length_elements, h]
  value i hi := ⟨signed, by rw [List.getElem_map, getElem_elements]⟩

theorem readAs_bytes (slice : List UInt8) :
    ReadAs 1 slice (slice.map fun b => Int64.ofNat b.toNat) where
  length := by rw [List.length_map, Nat.mul_one]
  value i hi := by
    rw [List.length_map] at hi
    refine ⟨false, ?_⟩
    rw [List.getElem_map, Nat.mul_one, List.take_one_drop_eq_of_lt_length hi]
    simp [Encoding.readInt, Encoding.readUnsigned, Bytes.toNat]

namespace Operand

/-- What a parameter with given bytes is shown as. -/
inductive Shows (base : UInt32) (labels : List UInt32) (param : Param) (slice : List UInt8) :
    Operand → Prop
  | number {signed hex : Bool} (hkind : param.kind = .int signed hex) :
      Shows base labels param slice (.number (Encoding.readInt slice signed) hex)
  | address (hkind : param.kind.isPointer = true) :
      Shows base labels param slice (.address (Encoding.readUnsigned slice))
  | label {offset : UInt32} (hkind : param.kind.isPointer = true)
      (hoffset : Encoding.unpointer? (Encoding.readUnsigned slice) base = some offset)
      (hne : offset ≠ 0) (hlabel : offset ∈ labels) : Shows base labels param slice (.label offset)
  | text {content : String} (hkind : param.kind = .text)
      (hcontent : Encoding.readText? slice = some content) :
      Shows base labels param slice (.text content)
  | bytes {values : List Int64} (hkind : param.kind = .text) (hvalues : ReadAs 1 slice values) :
      Shows base labels param slice (.list values true)
  | array {count : Nat} {signed hex : Bool} {values : List Int64}
      (hkind : param.kind = .array count signed hex) (hcount : values.length = count)
      (hvalues : ReadAs (param.length / count) slice values) :
      Shows base labels param slice (.list values hex)

/-- An operand shows the bytes of its parameter. -/
theorem shows_plainOperand (base : UInt32) (labels : List UInt32) {param : Param}
    {slice : List UInt8} (hproper : param.Proper) (hlength : slice.length = param.length) :
    Shows base labels param slice (plainOperand param slice) := by
  unfold plainOperand
  split
  · rename_i signed hex hkind
    exact .number hkind
  · rename_i element hkind
    exact .address (by rw [hkind]; rfl)
  · rename_i group element hkind
    exact .address (by rw [hkind]; rfl)
  · rename_i hkind
    split
    · rename_i content hcontent
      exact .text hkind hcontent
    · exact .bytes hkind (readAs_bytes slice)
  · rename_i count signed hex hkind
    obtain ⟨_, hdivides⟩ := hproper.array count signed hex hkind
    refine .array hkind (by rw [List.length_map, length_elements]) (readAs_elements ?_ signed)
    rw [hlength, Nat.mul_div_cancel' (Nat.dvd_of_mod_eq_zero hdivides)]

variable {base : UInt32} {labels : List UInt32} {param : Param} {slice : List UInt8}
  {operand : Operand}

/-- Labels may be added. -/
theorem Shows.mono {more : List UInt32} (h : Shows base labels param slice operand)
    (hmore : labels ⊆ more) : Shows base more param slice operand := by
  cases h with
  | number hkind => exact .number hkind
  | address hkind => exact .address hkind
  | label hkind hoffset hne hlabel => exact .label hkind hoffset hne (hmore hlabel)
  | text hkind hcontent => exact .text hkind hcontent
  | bytes hkind hvalues => exact .bytes hkind hvalues
  | array hkind hcount hvalues => exact .array hkind hcount hvalues

end Operand

/-- Numbers that were read have as many bytes as they are said to. -/
theorem ReadAs.length_element (h : ReadAs width slice values) (hi : i < values.length) :
    ((slice.drop (i * width)).take width).length = width := by
  have hmul : (i + 1) * width ≤ values.length * width := Nat.mul_le_mul_right _ hi
  rw [Nat.succ_mul, h.length] at hmul
  rw [List.length_take, List.length_drop]
  omega

theorem ReadAs.width_pos (h : ReadAs width slice values) (hpos : 1 ≤ slice.length) : 1 ≤ width := by
  rcases Nat.eq_zero_or_pos width with rfl | hwidth
  · have := h.length
    omega
  · exact hwidth

theorem ReadAs.writable (hle : width ≤ 7) (h : ReadAs width slice values) :
    ∀ value ∈ values, Writable value := by
  intro value hvalue
  obtain ⟨i, hi, rfl⟩ := List.mem_iff_getElem.1 hvalue
  obtain ⟨signed, hread⟩ := h.value i hi
  rw [hread]
  exact Encoding.writable_readInt (by rw [h.length_element hi]; exact hle) signed

/-- Numbers that were read are written as the same bytes. -/
theorem ReadAs.shows (hpos : 1 ≤ width) (hle : width ≤ 7) {start stop : Nat}
    (hstop : stop ≤ bytes.length) (hstart : start ≤ stop)
    (h : ReadAs width ((bytes.drop start).take (stop - start)) values) (symbols : Symbols)
    (base : UInt32) :
    Layout.Shows symbols base bytes (fun k => Interval.contains ⟨start, stop⟩ k = true)
      { fields := Field.ints start width (values.map numberExpr) } := by
  have hlength : values.length * width = stop - start := by
    rw [h.length, List.length_take, List.length_drop]
    omega
  have hend : stop = start + (values.map numberExpr).length * width := by
    rw [List.length_map]
    omega
  rw [hend]
  refine Layout.Shows.ints hpos fun i hi => ?_
  rw [List.length_map] at hi
  refine ⟨values[i], fun here => ?_, ?_⟩
  · rw [List.getElem_map]
    exact resolve_numberExpr (h.writable hle _ (List.getElem_mem hi)) symbols here
  obtain ⟨signed, hread⟩ := h.value i hi
  have helement := h.length_element hi
  have hmul : (i + 1) * width ≤ values.length * width := Nat.mul_le_mul_right _ hi
  rw [Nat.succ_mul, hlength] at hmul
  -- The element of the slice is the same bytes as the element of the whole.
  have hslice : (((bytes.drop start).take (stop - start)).drop (i * width)).take width =
      (bytes.drop (start + i * width)).take width := by
    rw [List.drop_take, List.drop_drop, List.take_take, Nat.min_eq_left (by omega)]
  rw [hslice] at hread helement
  rw [hread]
  exact (congrArg _ helement.symm).trans (Encoding.int_readInt (by omega) (by omega) signed)

namespace Operand.Shows

variable {base : UInt32} {labels : List UInt32} {param : Param} {bytes : List UInt8}
  {operand : Operand}

theorem numberWidth_of_isPointer (h : param.kind.isPointer = true) :
    param.numberWidth = param.length := by
  unfold Param.numberWidth
  cases hkind : param.kind with
  | pointer | struct => rfl
  | int | text | array => simp [hkind, FieldKind.isPointer] at h

variable {slice : List UInt8} {symbols : Symbols}

theorem writable (hproper : param.Proper) (hnarrow : param.numberWidth ≤ 7)
    (hlength : slice.length = param.length) (h : Shows base labels param slice operand) :
    operand.Writable := by
  have hpos := hproper.length_pos
  -- A parameter has at least one byte, so a list of its numbers is not empty.
  have hne : ∀ {width : Nat} {values : List Int64}, ReadAs width slice values → values ≠ [] := by
    rintro width values hvalues rfl
    have := hvalues.length
    simp only [List.length_nil] at this
    omega
  cases h with
  | number hkind =>
    simp only [Param.numberWidth, hkind] at hnarrow
    exact Encoding.writable_readInt (by omega) _
  | address hkind =>
    rw [numberWidth_of_isPointer hkind] at hnarrow
    have hlt := Encoding.readUnsigned_lt (show slice.length ≤ 8 by omega)
    have hcapacity : Bytes.capacity slice.length ≤ 2 ^ 56 :=
      Bytes.capacity_le_capacity (show slice.length ≤ 7 by omega)
    show Encoding.readUnsigned slice < 2 ^ 63
    omega
  | label => trivial
  | text hkind hcontent => exact (Encoding.text_of_readText? hcontent).1
  | bytes hkind hvalues => exact ⟨hne hvalues, hvalues.writable (by decide)⟩
  | array hkind hcount hvalues =>
    simp only [Param.numberWidth, hkind] at hnarrow
    exact ⟨hne hvalues, hvalues.writable hnarrow⟩

theorem count_le (hproper : param.Proper) (hlength : slice.length = param.length)
    (h : Shows base labels param slice operand) : operand.count ≤ param.length := by
  cases h with
  | number | address | label | text => exact Nat.zero_le _
  | bytes hkind hvalues =>
    have := hvalues.length
    simp only [count]
    omega
  | @array count signed hex values hkind hcount hvalues =>
    have hpos := hproper.length_pos
    have hwidth := hvalues.width_pos (by omega)
    -- Each number takes at least one byte.
    calc values.length ≤ values.length * (param.length / count) := Nat.le_mul_of_pos_right _ hwidth
      _ = param.length := by rw [hvalues.length, hlength]

/-- The argument of an operand suits the parameter. -/
theorem checkArg (hlength : slice.length = param.length) (h : Shows base labels param slice operand)
    (code : Code) : code.checkArg param (operand.arg base) = .ok () := by
  cases h with
  | number hkind => simp only [arg, Code.checkArg, hkind]
  | address hkind | label hkind =>
    simp only [arg, Code.checkArg]
    cases hk : param.kind <;> simp [hk, FieldKind.isPointer] at hkind ⊢
  | @text content hkind hcontent =>
    have htext := (Encoding.text_of_readText? hcontent).2
    -- The text was read from the bytes of the parameter, so it fits into them.
    have hfits : ¬param.length < content.utf8ByteSize := by
      intro hlt
      rw [Encoding.text, if_pos (by rw [Utf8.length_encode]; omega)] at htext
      simp at htext
    simp only [arg, Code.checkArg, hkind]
    rw [if_neg hfits]
  | bytes hkind hvalues =>
    have := hvalues.length
    simp only [arg, Code.checkArg, hkind, List.length_map]
    rw [if_neg (by omega)]
  | array hkind hcount hvalues =>
    simp only [arg, Code.checkArg, hkind, List.length_map]
    rw [if_neg (by omega)]

/-- The number in the bytes of a parameter is written as the same bytes. -/
theorem int_paramBytes (hproper : param.Proper) (hle : param.length ≤ 7)
    (hstop : param.stop ≤ bytes.length) (signed : Bool) :
    Encoding.int (Encoding.readInt (paramBytes param bytes) signed) param.length =
      .ok (paramBytes param bytes) := by
  have hlength := length_paramBytes hstop
  have hpos := hproper.length_pos
  rw [← hlength] at hpos hle ⊢
  exact Encoding.int_readInt hpos (Nat.le_trans hle (by decide)) signed

/-- A value that stands for the address in the bytes of a parameter is written as that address. -/
theorem layout_address (code : Code) {e : Expr} {value : Int64} (hproper : param.Proper)
    (hkind : param.kind.isPointer = true) (hnarrow : param.numberWidth ≤ 7)
    (hstop : param.stop ≤ bytes.length) (hvalue : ∀ here, symbols.resolve e here = .ok value)
    (hpointer : Encoding.pointer value base =
      Int64.ofNat (Encoding.readUnsigned (paramBytes param bytes))) :
    ∃ l, Layout.ofArg code param (.expr e) = .ok l ∧
      l.Shows symbols base bytes fun k =>
        Interval.contains ⟨param.offset, param.stop⟩ k = true := by
  rw [numberWidth_of_isPointer hkind] at hnarrow
  have hunsigned : Encoding.readInt (paramBytes param bytes) false =
      Int64.ofNat (Encoding.readUnsigned (paramBytes param bytes)) := by
    simp [Encoding.readInt]
  refine ⟨{ fields := [.pointer param.offset param.length (.expr e)] }, ?_,
    Layout.Shows.single (Layout.shows_field rfl hvalue ?_) rfl⟩
  · cases hk : param.kind <;> simp [hk, FieldKind.isPointer, Layout.ofArg] at hkind ⊢
  · show Encoding.int (Encoding.pointer value base) param.length = _
    rw [hpointer, ← hunsigned, int_paramBytes hproper hnarrow hstop]
    rfl

/-- The parts for an operand hold the bytes of its parameter. -/
theorem layout (code : Code) (hproper : param.Proper) (hnarrow : param.numberWidth ≤ 7)
    (hstop : param.stop ≤ bytes.length) (hraw : param.kind.isPointer = true →
      Encoding.readUnsigned (paramBytes param bytes) = 0 ∨
        Encoding.pointerLimit ≤ Encoding.readUnsigned (paramBytes param bytes))
    (hlabels : ∀ offset ∈ labels,
      symbols.source (Listing.label offset) = some (Int64.ofNat offset.toNat))
    (h : Shows base labels param (paramBytes param bytes) operand) :
    ∃ l, Layout.ofArg code param (operand.arg base) = .ok l ∧
      l.Shows symbols base bytes fun k =>
          Interval.contains ⟨param.offset, param.stop⟩ k = true := by
  have hlength := length_paramBytes hstop
  have hpos := hproper.length_pos
  have hwritable := h.writable hproper hnarrow hlength
  cases h with
  | @number signed hex hkind =>
    simp only [Param.numberWidth, hkind] at hnarrow
    refine ⟨{ fields := [.int param.offset param.length _] }, by simp only [arg, Layout.ofArg, hkind],
      Layout.Shows.single (Layout.shows_field rfl
        (fun here => resolve_numberExpr hwritable symbols here) ?_) rfl⟩
    exact int_paramBytes hproper hnarrow hstop signed
  | address hkind =>
    exact layout_address code hproper hkind hnarrow hstop
      (fun here => resolve_constant _ symbols here)
      (pointer_addressValue (hraw hkind) hwritable base)
  | label hkind hoffset hne hlabel =>
    exact layout_address code hproper hkind hnarrow hstop
      (fun here => resolve_label (hlabels _ hlabel) here) (pointer_of_unpointer? hoffset hne)
  | text hkind hcontent =>
    have htext := (Encoding.text_of_readText? hcontent).2
    rw [hlength] at htext
    refine ⟨{ fixed := [⟨param.offset, paramBytes param bytes⟩] },
      by simp only [arg, Layout.ofArg, hkind, htext], Layout.Shows.patch ?_ ?_⟩
    · show (bytes.drop param.offset).take (paramBytes param bytes).length = _
      rw [hlength]
      rfl
    · show Interval.mk param.offset (param.offset + (paramBytes param bytes).length) = _
      rw [hlength]
      rfl
  | @bytes values hkind hvalues =>
    have hcount : (values.map numberExpr).length ≤ param.length := by
      have := hvalues.length
      rw [List.length_map]
      omega
    refine ⟨{ fields := Field.ints param.offset 1 (values.map numberExpr) }, ?_, ?_⟩
    · simp only [arg, Layout.ofArg, hkind]
      rw [if_pos hcount]
    · refine ReadAs.shows (by decide) (by decide) hstop (Nat.le_add_right _ _) ?_ symbols base
      rwa [Param.stop, Nat.add_sub_cancel_left]
  | @array count signed hex values hkind hcount hvalues =>
    simp only [Param.numberWidth, hkind] at hnarrow
    have hwidth := hvalues.width_pos (by omega)
    refine ⟨{ fields := Field.ints param.offset (param.length / count) (values.map numberExpr) },
      ?_, ?_⟩
    · simp only [arg, Layout.ofArg, hkind]
      rw [if_pos (by rw [List.length_map, hcount])]
    · refine ReadAs.shows hwidth hnarrow hstop (Nat.le_add_right _ _) ?_ symbols base
      rwa [Param.stop, Nat.add_sub_cancel_left]

end Operand.Shows

end Listing

end CartScript
