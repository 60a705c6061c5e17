import CartScript.Listing.Operand
import CartScript.Proofs.Except
import Mathlib.Algebra.Group.Int.Defs
import Mathlib.Algebra.Group.Nat.Defs
import Mathlib.Data.List.Forall2

/-!
# Integers and their bytes

A value that fits a width, signed or unsigned, is written as bytes that hold it, and a number that was
read from bytes is written as the same bytes.  Arrays are such numbers one after the other.
-/

namespace CartScript.Encoding

variable {bytes : List UInt8} {width : Nat} {value : Int64} {values : List Int64}

theorem length_int (h : int value width = .ok bytes) : bytes.length = width := by
  unfold int at h
  split at h
  · rw [← Except.ok.inj h, Bytes.length_ofNat]
  · simp at h

theorem readUnsigned_lt (h : bytes.length ≤ 8) :
    readUnsigned bytes < Bytes.capacity bytes.length := by
  rw [readUnsigned, List.take_of_length_le h]
  exact Bytes.toNat_lt bytes

/-! ## Values that fit -/

/-- The values that fit a width, as signed or as unsigned numbers.  Eight bytes hold every value. -/
def InRange (value : Int64) (width : Nat) : Prop :=
  width = 8 ∨ -2 ^ (8 * width - 1) ≤ value.toInt ∧ value.toInt < 2 ^ (8 * width)

theorem natCast_capacity (width : Nat) : (Bytes.capacity width : Int) = 2 ^ (8 * width) := by
  rw [Bytes.capacity, Nat.one_shiftLeft, Int.natCast_pow]
  rfl

theorem natCast_signBit (width : Nat) : (Bytes.signBit width : Int) = 2 ^ (8 * width - 1) := by
  rw [Bytes.signBit, Nat.one_shiftLeft, Int.natCast_pow]
  rfl

theorem fits_iff (hle : width ≤ 8) : fits value width = true ↔ InRange value width := by
  simp only [fits, InRange, natCast_capacity, natCast_signBit, Bool.or_eq_true, Bool.and_eq_true,
    decide_eq_true_eq]
  rw [show 8 ≤ width ↔ width = 8 by omega]

theorem exists_int_iff (hle : width ≤ 8) :
    (∃ bytes, int value width = .ok bytes) ↔ InRange value width := by
  rw [← fits_iff hle, int]
  split
  · rename_i hfits
    exact iff_of_true ⟨_, rfl⟩ hfits
  · rename_i hfits
    exact iff_of_false (by simp) hfits

/-! ## Numbers that are read -/

/-- A number of at most eight bytes, as it is read: what the bytes hold, or as far below zero as they
    are below their capacity. -/
theorem toInt_readInt (hle : bytes.length ≤ 8) (signed : Bool) :
    (readInt bytes signed).toInt = readUnsigned bytes ∨
      Bytes.signBit bytes.length ≤ readUnsigned bytes ∧
        (readInt bytes signed).toInt = readUnsigned bytes - Bytes.capacity bytes.length := by
  have hraw := readUnsigned_lt hle
  have hwidth : min bytes.length 8 = bytes.length := by omega
  simp only [readInt, hwidth]
  by_cases hfull : bytes.length = 8
  · -- A word of eight bytes is signed, whether it is read so or not.
    have hword : (Int64.ofNat (readUnsigned bytes)).toInt =
        (readUnsigned bytes : Int).bmod (2 ^ 64) := Int64.toInt_ofNat'
    have hcapacity : Bytes.capacity 8 = 2 ^ 64 := rfl
    have hsign : Bytes.signBit 8 = 2 ^ 63 := rfl
    rw [if_neg (by simp [hfull]), hword, Int.bmod_def]
    rw [hfull] at hraw ⊢
    rw [Int.emod_eq_of_lt (by omega) (by omega)]
    split <;> omega
  · have hcapacity : Bytes.capacity bytes.length ≤ 2 ^ 56 :=
      Bytes.capacity_le_capacity (show bytes.length ≤ 7 by omega)
    split
    · rename_i hnegative
      simp only [Bool.and_eq_true, decide_eq_true_eq] at hnegative
      exact .inr ⟨hnegative.2, Int64.toInt_ofInt_of_le (by omega) (by omega)⟩
    · exact .inl (Int64.toInt_ofNat_of_lt (by omega))

/-- Bytes that hold a number modulo their capacity are what is written for it. -/
theorem int_of_emod (hlength : bytes.length ≤ 8) (hfits : fits value bytes.length = true)
    (hvalue : value.toInt % Bytes.capacity bytes.length = readUnsigned bytes) :
    int value bytes.length = .ok bytes := by
  rw [int, if_pos hfits, hvalue, Int.toNat_natCast, readUnsigned, List.take_of_length_le hlength,
    Bytes.ofNat_toNat]

/-- A number that was read is written as the same bytes. -/
theorem int_readInt (hpos : 1 ≤ bytes.length) (hle : bytes.length ≤ 8) (signed : Bool) :
    int (readInt bytes signed) bytes.length = .ok bytes := by
  have hraw := readUnsigned_lt hle
  have hhalf := Bytes.capacity_eq_signBit bytes.length hpos
  have hvalue := toInt_readInt hle signed
  refine int_of_emod hle ?_ ?_
  · simp only [fits, Bool.or_eq_true, decide_eq_true_eq, Bool.and_eq_true]
    omega
  · -- A negative number is as far below zero as its bytes are below their capacity.
    rcases hvalue with hvalue | ⟨-, hvalue⟩
    · rw [hvalue]
      exact Int.emod_eq_of_lt (by omega) (by omega)
    · rw [hvalue, Int.sub_emod_right]
      exact Int.emod_eq_of_lt (by omega) (by omega)

/-! ## Bytes that hold a value -/

/-- Bytes of a width that hold a value: as an unsigned number they are the value modulo what they can
    hold, and read with the sign of the value they are the value. -/
structure Holds (width : Nat) (bytes : List UInt8) (value : Int64) : Prop where
  length : bytes.length = width
  unsigned : (readUnsigned bytes : Int) = value.toInt % 2 ^ (8 * width)
  signed : readInt bytes (decide (value < 0)) = value

/-- What is written, as an unsigned number. -/
theorem readUnsigned_int (hle : width ≤ 8) (h : int value width = .ok bytes) :
    (readUnsigned bytes : Int) = value.toInt % Bytes.capacity width := by
  have hlength := length_int h
  unfold int at h
  split at h
  · obtain rfl := Except.ok.inj h
    have hcapacity : 0 < Bytes.capacity width := by
      rw [Bytes.capacity, Nat.one_shiftLeft]
      exact Nat.two_pow_pos _
    have hnonneg := Int.emod_nonneg value.toInt (b := Bytes.capacity width) (by omega)
    have hlt := Int.emod_lt_of_pos value.toInt (b := Bytes.capacity width) (by omega)
    rw [readUnsigned, List.take_of_length_le (by omega), Bytes.toNat_ofNat,
      Nat.mod_eq_of_lt (by omega), Int.toNat_of_nonneg hnonneg]
  · simp at h

/-- A value that is not negative is what its bytes are as an unsigned number. -/
theorem readUnsigned_of_int (hle : width ≤ 8) (hvalue : 0 ≤ value.toInt)
    (h : int value width = .ok bytes) : (readUnsigned bytes : Int) = value.toInt := by
  have hlt : value.toInt < Bytes.capacity width := by
    rcases (exists_int_iff hle).1 ⟨bytes, h⟩ with rfl | ⟨-, hlt⟩
    · -- Eight bytes hold every value.
      have hword := value.toInt_lt
      have hcapacity : Bytes.capacity 8 = 2 ^ 64 := rfl
      omega
    · rwa [natCast_capacity]
  rw [readUnsigned_int hle h]
  exact Int.emod_eq_of_lt hvalue hlt

/-- A value that was written is read back with its sign. -/
theorem readInt_of_int (hpos : 1 ≤ width) (hle : width ≤ 8) (h : int value width = .ok bytes) :
    readInt bytes (decide (value < 0)) = value := by
  have hlength := length_int h
  have hraw := readUnsigned_int hle h
  have hwidth : min bytes.length 8 = width := by omega
  have hnegative : value < 0 ↔ value.toInt < 0 := by
    rw [Int64.lt_iff_toInt_lt, Int64.toInt_zero]
  simp only [readInt, hwidth]
  by_cases hfull : width = 8
  · -- A word of eight bytes is the value as it is.
    have hcapacity : Bytes.capacity 8 = Int64.size := rfl
    rw [if_neg (by simp [hfull]), ← Int64.toInt_inj, Int64.toInt_ofNat', hraw, hfull, hcapacity,
      Int.emod_bmod]
    exact value.toInt_bmod
  by_cases hvalue : value < 0
  · -- The bytes are as far below their capacity as the value is below zero.
    have hlow := hnegative.1 hvalue
    have hhalf := Bytes.capacity_eq_signBit width hpos
    obtain ⟨hleast, -⟩ := ((exists_int_iff hle).1 ⟨bytes, h⟩).resolve_left hfull
    rw [← natCast_signBit] at hleast
    have hsum : (readUnsigned bytes : Int) = value.toInt + Bytes.capacity width := by
      rw [hraw, ← Int.add_emod_right]
      exact Int.emod_eq_of_lt (by omega) (by omega)
    rw [if_pos, hsum, Int.add_sub_cancel, Int64.ofInt_toInt]
    simp only [hvalue, decide_true, Bool.true_and, Bool.and_eq_true, decide_eq_true_eq]
    omega
  · have hhigh := mt hnegative.2 hvalue
    have hsame := readUnsigned_of_int hle (by omega) h
    have hword := value.toInt_lt
    rw [if_neg (by simp [hvalue]), ← Int64.toInt_inj, Int64.toInt_ofNat_of_lt (by omega), hsame]

/-- What `int` writes holds the value. -/
theorem holds_of_int (hpos : 1 ≤ width) (hle : width ≤ 8) (h : int value width = .ok bytes) :
    Holds width bytes value where
  length := length_int h
  unsigned := by rw [readUnsigned_int hle h, natCast_capacity]
  signed := readInt_of_int hpos hle h

/-! ## Arrays -/

/-- An array is its first value and an array of the others. -/
theorem array_cons_eq_ok_iff :
    array (value :: values) width = .ok bytes ↔ ∃ part rest,
      int value width = .ok part ∧ array values width = .ok rest ∧ part ++ rest = bytes := by
  rw [array]
  cases int value width with
  | error fault => simp
  | ok part => simp [Except.map_eq_ok_iff]

theorem exists_array_iff (hle : width ≤ 8) :
    (∃ bytes, array values width = .ok bytes) ↔ ∀ value ∈ values, InRange value width := by
  induction values with
  | nil => simp [array]
  | cons value values ih =>
    rw [List.forall_mem_cons, ← ih, ← exists_int_iff hle]
    simp only [array_cons_eq_ok_iff]
    constructor
    · rintro ⟨_, part, rest, hpart, hrest, -⟩
      exact ⟨⟨part, hpart⟩, rest, hrest⟩
    · rintro ⟨⟨part, hpart⟩, rest, hrest⟩
      exact ⟨_, part, rest, hpart, hrest, rfl⟩

/-- Each element of an array holds its value. -/
theorem holds_of_array (hpos : 1 ≤ width) (hle : width ≤ 8) (h : array values width = .ok bytes) :
    bytes.length = values.length * width ∧
      List.Forall₂ (Holds width) (Listing.elements width values.length bytes) values := by
  induction values generalizing bytes with
  | nil =>
    obtain rfl := Except.ok.inj h
    exact ⟨by simp, .nil⟩
  | cons value values ih =>
    obtain ⟨part, rest, hpart, hrest, rfl⟩ := array_cons_eq_ok_iff.1 h
    obtain ⟨hlength, helements⟩ := ih hrest
    have hwidth := length_int hpart
    have hdrop : (part ++ rest).drop width = rest := by rw [← hwidth, List.drop_left]
    have htake : (part ++ rest).take width = part := by rw [← hwidth, List.take_left]
    refine ⟨?_, ?_⟩
    · rw [List.length_append, hwidth, hlength, List.length_cons, Nat.succ_mul, Nat.add_comm]
    · rw [List.length_cons, Listing.elements, hdrop, htake]
      exact .cons (holds_of_int hpos hle hpart) helements

/-- Numbers that were read one after the other are written as the same bytes. -/
theorem array_elements (hpos : 1 ≤ width) (hle : width ≤ 8) (signed : Nat → Bool) {count : Nat}
    (h : bytes.length = count * width) :
    array ((Listing.elements width count bytes).mapIdx fun i part => readInt part (signed i)) width =
      .ok bytes := by
  induction count generalizing bytes signed with
  | zero =>
    rw [Nat.zero_mul] at h
    rw [List.length_eq_zero_iff.1 h]
    rfl
  | succ count ih =>
    rw [Nat.succ_mul] at h
    have htake : (bytes.take width).length = width := by
      rw [List.length_take]
      omega
    have hdrop : (bytes.drop width).length = count * width := by
      rw [List.length_drop]
      omega
    have hfirst : int (readInt (bytes.take width) (signed 0)) (bytes.take width).length =
        .ok (bytes.take width) := int_readInt (by omega) (by omega) (signed 0)
    have hrest := ih (fun i => signed (i + 1)) hdrop
    rw [htake] at hfirst
    rw [Listing.elements, List.mapIdx_cons]
    exact array_cons_eq_ok_iff.2 ⟨_, _, hfirst, hrest, List.take_append_drop width bytes⟩

/-! ## Integers and arrays -/

/-- Integers of one to eight bytes are written and read without loss.  A value is written if and only
    if it is in range, as bytes that hold it, and what was read is written as the same bytes.  So it is
    with each element of an array. -/
theorem int_exact {width : Nat} (hpos : 1 ≤ width) (hle : width ≤ 8) :
    (∀ value : Int64,
      ((∃ bytes, int value width = .ok bytes) ↔ InRange value width) ∧
        ∀ bytes, int value width = .ok bytes → Holds width bytes value) ∧
      (∀ bytes : List UInt8, bytes.length = width →
        ∀ signed, int (readInt bytes signed) width = .ok bytes) ∧
      (∀ values : List Int64,
        ((∃ bytes, array values width = .ok bytes) ↔ ∀ value ∈ values, InRange value width) ∧
          ∀ bytes, array values width = .ok bytes → bytes.length = values.length * width ∧
            List.Forall₂ (Holds width) (Listing.elements width values.length bytes) values) ∧
      ∀ (count : Nat) (bytes : List UInt8), bytes.length = count * width → ∀ signed : Nat → Bool,
        array ((Listing.elements width count bytes).mapIdx fun i part => readInt part (signed i))
          width = .ok bytes := by
  refine ⟨fun value => ⟨exists_int_iff hle, fun bytes => holds_of_int hpos hle⟩, ?_,
    fun values => ⟨exists_array_iff hle, fun bytes => holds_of_array hpos hle⟩,
    fun count bytes hbytes signed => array_elements hpos hle signed hbytes⟩
  rintro bytes rfl signed
  exact int_readInt hpos hle signed

/-- Two bytes hold -2 and 65534 alike, and are read back with the sign that is asked for. -/
theorem int_exact_two_bytes :
    1 ≤ 2 ∧ 2 ≤ 8 ∧ InRange (-2) 2 ∧ ¬InRange 65536 2 ∧ Holds 2 [0xFE, 0xFF] (-2) ∧
      Holds 2 [0xFE, 0xFF] 65534 ∧ int (readInt [0xFE, 0xFF] true) 2 = .ok [0xFE, 0xFF] ∧
      array [-2, 3] 2 = .ok [0xFE, 0xFF, 3, 0] := by
  have hexact : 1 ≤ 2 → 2 ≤ 8 → _ := int_exact
  obtain ⟨hint, hread, -, harray⟩ := hexact (by decide) (by decide)
  refine ⟨by decide, by decide, (hint (-2)).1.1 ⟨_, rfl⟩, ?_, (hint (-2)).2 _ rfl,
    (hint 65534).2 _ rfl, hread _ rfl true, harray 2 [0xFE, 0xFF, 3, 0] rfl fun _ => true⟩
  intro h
  simpa [int, fits, Bytes.capacity] using (hint 65536).1.2 h

end CartScript.Encoding
