import CartScript.Proofs.Listing.Operands
import CartScript.Proofs.Script.Alone

/-!
# Which addresses are read back

A stored address is shown as an offset, where it is one, and as it is otherwise.  A script that has
the text in place of the address gives the same bytes for zero, for what is too high to be an offset and
for what lies above the base.  To other words below the limit of offsets the base is added, and the
highest words are no numbers of a script at all.
-/

namespace CartScript

/-! ## Numbers that are not read -/

/-- Hexadecimal digits of more than a number of a script can hold. -/
theorem Expr.ofText?_hex_eq_none {n : Nat} (hn : 2 ^ 63 ≤ n) : ofText? ("0x" ++ hex n) = none := by
  obtain ⟨hgap, hlex⟩ := Lexer.lex_hex n Lexer.endsWord_nil
  rw [List.append_nil, ← Lexer.encode_hex] at hgap hlex
  rw [Lexer.numberOf, if_neg (Nat.not_lt.2 hn)] at hlex
  generalize Ascii.toText _ = digits at hlex
  -- The digits are the first token, so reading fails at once.
  have hpeek : (({ name := "", content := Utf8.encode ("0x" ++ hex n) } : Script).start
      []).supply.peek.1 = .error (.malformedNumber digits .tooLarge) := by
    show (TextStream.advance (.ofBytes "" (Utf8.encode ("0x" ++ hex n)))).1 = _
    simp only [TextStream.advance, TextStream.ofBytes, hgap, List.drop_zero, hlex]
    rfl
  have hlimit : 1 ≤ ({} : Environment).limit := by decide
  obtain ⟨next, hrun⟩ := Parsing.sole_expr_of_peek hlimit hpeek
  rw [ofText?, hrun]

/-! ## Words and their bytes -/

/-- The bytes of a word determine it. -/
theorem Encoding.int_ofNat_eq_iff {n raw width : Nat} (hn : n < 2 ^ 63)
    (hraw : raw < Bytes.capacity width) :
    int (Int64.ofNat n) width = .ok (Bytes.ofNat width raw) ↔ n = raw := by
  have hvalue : (Int64.ofNat n).toInt = n := Int64.toInt_ofNat_of_lt hn
  have hmod : ((n : Int) % Bytes.capacity width).toNat = n % Bytes.capacity width := by
    rw [← Int.natCast_emod, Int.toNat_natCast]
  constructor
  · intro h
    rw [int] at h
    split at h
    · rename_i hfits
      -- A number that fits is below the capacity, so nothing of it is cut off.
      have hlt : n < Bytes.capacity width := by
        simp only [fits, Bool.or_eq_true, Bool.and_eq_true, decide_eq_true_eq, hvalue] at hfits
        rcases hfits with hwide | ⟨-, hlt⟩
        · exact Nat.lt_of_lt_of_le (Nat.lt_trans hn (by decide)) (Bytes.capacity_le_capacity hwide)
        · omega
      have hbytes := congrArg Bytes.toNat (Except.ok.inj h)
      rw [hvalue, hmod, Bytes.toNat_ofNat, Bytes.toNat_ofNat, Nat.mod_mod, Nat.mod_eq_of_lt hlt,
        Nat.mod_eq_of_lt hraw] at hbytes
      exact hbytes
    · simp at h
  · rintro rfl
    have hfits : fits (Int64.ofNat n) width = true := by
      simp only [fits, Bool.or_eq_true, Bool.and_eq_true, decide_eq_true_eq, hvalue]
      omega
    rw [int, if_pos hfits, hvalue, hmod, Nat.mod_eq_of_lt hraw]

namespace Listing

/-! ## Addresses -/

variable {raw : Nat} {base : UInt32}

/-- A word up to the base is shown as it is. -/
theorem addressValue_of_le (h : raw ≤ base.toNat) : addressValue raw base = raw := by
  unfold addressValue Encoding.unpointer?
  split
  · rename_i offset hoffset
    split at hoffset
    · rename_i hin
      obtain rfl := Option.some.inj hoffset
      rw [show raw - base.toNat = 0 by omega, if_neg (by decide)]
    · simp at hoffset
  · rfl

/-- A low word above the base is shown as an offset, to which the base is added again. -/
theorem pointer_addressValue_of_gt (hbase : base.toNat < raw) (hraw : raw < Encoding.pointerLimit) :
    Encoding.pointer (Int64.ofNat (addressValue raw base)) base = Int64.ofNat raw := by
  have hoffset : Encoding.unpointer? raw base = some (UInt32.ofNat (raw - base.toNat)) := by
    rw [Encoding.unpointer?, if_pos (by omega)]
  have hne : UInt32.ofNat (raw - base.toNat) ≠ 0 := by
    unfold Encoding.pointerLimit at hraw
    intro hzero
    have := congrArg UInt32.toNat hzero
    rw [UInt32.toNat_ofNat_of_lt' (show _ < 2 ^ 32 by omega)] at this
    exact absurd this (by simp; omega)
  simp only [addressValue, hoffset, if_pos hne]
  exact pointer_of_unpointer? hoffset hne

/-- A low word that is shown as it is is taken for an offset. -/
theorem pointer_of_lt (hpos : raw ≠ 0) (hraw : raw < Encoding.pointerLimit) (base : UInt32) :
    Encoding.pointer (Int64.ofNat raw) base = Int64.ofNat (raw + base.toNat) := by
  have hbase := base.toNat_lt
  unfold Encoding.pointerLimit at hraw
  have hvalue : (Int64.ofNat raw).toInt = raw := Int64.toInt_ofNat_of_lt (by omega)
  rw [Encoding.pointer, if_pos, Int64.ofNat_add]
  rw [Int64.lt_iff_toInt_lt, hvalue, Int64.toInt_zero, Encoding.pointerLimit]
  omega

/-- What is stored for an address after it was shown, and when that is the address. -/
theorem exists_pointer_addressValue (hlt : raw < 2 ^ 63) (base : UInt32) :
    ∃ n < 2 ^ 63, Encoding.pointer (Int64.ofNat (addressValue raw base)) base = Int64.ofNat n ∧
      (n = raw ↔ raw = 0 ∨ Encoding.pointerLimit ≤ raw ∨ base.toNat < raw) := by
  by_cases hhigh : raw = 0 ∨ Encoding.pointerLimit ≤ raw
  · refine ⟨raw, hlt, pointer_addressValue hhigh hlt base, ?_⟩
    exact iff_of_true rfl (hhigh.imp_right .inl)
  have hpos : raw ≠ 0 := fun h => hhigh (.inl h)
  have hraw : raw < Encoding.pointerLimit := Nat.not_le.1 fun h => hhigh (.inr h)
  by_cases hbase : base.toNat < raw
  · exact ⟨raw, hlt, pointer_addressValue_of_gt hbase hraw, iff_of_true rfl (.inr (.inr hbase))⟩
  · -- The base is at least the word, so it is not zero and adding it makes a difference.
    have hlimit : Encoding.pointerLimit = 2 ^ 25 := rfl
    have hword := base.toNat_lt
    refine ⟨raw + base.toNat, by omega, ?_, by omega⟩
    rw [addressValue_of_le (Nat.not_lt.1 hbase), pointer_of_lt hpos hraw base]

/-! ## Texts of addresses -/

/-- The text of an address is an expression, and the value of that is stored as the bytes of the
    address. -/
def ReadsBack (base : UInt32) (width raw : Nat) : Prop :=
  ∃ e value, Expr.ofText? (address raw base) = some e ∧
    (∀ symbols here, e.eval symbols here = .ok (.known value)) ∧
    Encoding.int (Encoding.pointer value base) width = .ok (Bytes.ofNat width raw)

theorem readsBack_iff_of_lt {width : Nat} (hraw : raw < Bytes.capacity width) (hlt : raw < 2 ^ 63)
    (base : UInt32) :
    ReadsBack base width raw ↔ raw = 0 ∨ Encoding.pointerLimit ≤ raw ∨ base.toNat < raw := by
  have htext : Expr.ofText? (address raw base) =
      some (.constant (Int64.ofNat (addressValue raw base))) :=
    Expr.ofText?_of_spelled (spelled_address hlt base) (Parsing.isExpr_number (by decide) _)
  obtain ⟨n, hn, hpointer, hiff⟩ := exists_pointer_addressValue hlt base
  rw [← hiff, ← Encoding.int_ofNat_eq_iff hn hraw, ← hpointer]
  constructor
  · rintro ⟨e, value, he, hvalue, hbytes⟩
    obtain rfl := Option.some.inj (htext.symm.trans he)
    -- A constant has one value, whatever the symbols are.
    have hsame : Value.known (Int64.ofNat (addressValue raw base)) = .known value :=
      Except.ok.inj (hvalue (fun _ => none) 0)
    obtain rfl := Value.known.inj hsame
    exact hbytes
  · exact fun hbytes => ⟨_, _, htext, fun _ _ => rfl, hbytes⟩

/-- The highest words are shown as they are, which no script can say. -/
theorem not_readsBack_of_ge (hge : 2 ^ 63 ≤ raw) (base : UInt32) (width : Nat) :
    ¬ReadsBack base width raw := by
  have hbase := base.toNat_lt
  have hlimit : Encoding.pointerLimit = 2 ^ 25 := rfl
  have hnone : Encoding.unpointer? raw base = none := by
    rw [Encoding.unpointer?, if_neg (by omega)]
  have htext : address raw base = "0x" ++ hex raw := by
    simp only [address, hnone]
    rw [if_neg (by omega)]
  rintro ⟨e, value, he, -⟩
  rw [htext, Expr.ofText?_hex_eq_none hge] at he
  simp at he

/-- The addresses whose text gives their bytes back: zero, those too high to be taken for offsets and
    those above the base, as far as they are numbers of a script. -/
theorem address_readsBack_iff (base : UInt32) {width raw : Nat}
    (hraw : raw < Bytes.capacity width) :
    ReadsBack base width raw ↔
      raw < 2 ^ 63 ∧ (raw = 0 ∨ Encoding.pointerLimit ≤ raw ∨ base.toNat < raw) := by
  by_cases hlt : raw < 2 ^ 63
  · rw [readsBack_iff_of_lt hraw hlt base, and_iff_right hlt]
  · exact iff_of_false (not_readsBack_of_ge (Nat.not_lt.1 hlt) base width) fun h => hlt h.1

/-- An address in the image. -/
theorem readsBack_in_image :
    0x8000100 < Bytes.capacity 4 ∧ ReadsBack 0x8000000 4 0x8000100 :=
  ⟨by decide, (address_readsBack_iff 0x8000000 (by decide)).2 (by decide)⟩

/-- A word below the base has the base added to it, and a word with the highest bit is not read. -/
theorem not_readsBack_low_and_high :
    address 0x1234 0x8000000 = "0x1234" ∧
      Encoding.int (Encoding.pointer 0x1234 0x8000000) 4 = .ok [0x34, 0x12, 0x00, 0x08] ∧
      ¬ReadsBack 0x8000000 4 0x1234 ∧
      Expr.ofText? (address (2 ^ 63) 0x8000000) = none ∧ ¬ReadsBack 0x8000000 8 (2 ^ 63) := by
  have hlow := readsBack_iff_of_lt (show 0x1234 < Bytes.capacity 4 by decide) (by decide) 0x8000000
  refine ⟨by decide, by rfl, fun h => ?_, ?_, not_readsBack_of_ge (Nat.le_refl _) _ _⟩
  · exact absurd (hlow.1 h) (by decide)
  · exact Expr.ofText?_hex_eq_none (Nat.le_refl _)

end Listing

end CartScript
