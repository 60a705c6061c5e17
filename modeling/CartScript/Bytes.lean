/-!
# Numbers as bytes

Numbers are stored lowest byte first.  `Bytes.ofNat` keeps the low bytes of a number, and
`Bytes.toNat` reads them back.
-/

namespace CartScript.Bytes

/-- The lowest `width` bytes of a number, the lowest first. -/
def ofNat : (width n : Nat) → List UInt8
  | 0, _ => []
  | width + 1, n => UInt8.ofNat (n % 256) :: ofNat width (n / 256)

/-- The number of some bytes, the lowest first. -/
def toNat : List UInt8 → Nat
  | [] => 0
  | b :: bytes => b.toNat + 256 * toNat bytes

@[simp]
theorem length_ofNat (width n : Nat) : (ofNat width n).length = width := by
  induction width generalizing n with
  | zero => rfl
  | succ width ih => simp [ofNat, ih]

/-! ## What bytes can hold -/

/-- How many numbers bytes of a width can hold. -/
def capacity (width : Nat) : Nat := 1 <<< (8 * width)

/-- The highest bit of bytes of a width. -/
def signBit (width : Nat) : Nat := 1 <<< (8 * width - 1)

theorem capacity_succ (width : Nat) : capacity (width + 1) = 256 * capacity width := by
  rw [capacity, capacity, Nat.one_shiftLeft, Nat.one_shiftLeft, Nat.mul_succ, Nat.pow_add,
    Nat.mul_comm]

/-- The highest bit stands for half of what the bytes hold. -/
theorem capacity_eq_signBit (width : Nat) (h : 1 ≤ width) : capacity width = 2 * signBit width := by
  rw [capacity, signBit, Nat.one_shiftLeft, Nat.one_shiftLeft, ← Nat.pow_succ']
  congr 1
  omega

theorem capacity_le_capacity {width limit : Nat} (h : width ≤ limit) :
    capacity width ≤ capacity limit := by
  rw [capacity, capacity, Nat.one_shiftLeft, Nat.one_shiftLeft]
  exact Nat.pow_le_pow_right (by decide) (by omega)

/-- Reading back gives the number without its higher bytes. -/
theorem toNat_ofNat (width n : Nat) : toNat (ofNat width n) = n % capacity width := by
  induction width generalizing n with
  | zero => simp [ofNat, toNat, capacity, Nat.mod_one]
  | succ width ih =>
    have hb : n % 256 % 2 ^ 8 = n % 256 := Nat.mod_eq_of_lt (by omega)
    rw [ofNat, toNat, ih, UInt8.toNat_ofNat', hb, capacity_succ, Nat.mod_mul]

theorem toNat_lt (bytes : List UInt8) : toNat bytes < capacity bytes.length := by
  induction bytes with
  | nil => exact Nat.one_pos
  | cons b bytes ih =>
    have hb := b.toNat_lt
    rw [toNat, List.length_cons, capacity_succ]
    omega

/-- Writing what was read gives the same bytes. -/
theorem ofNat_toNat (bytes : List UInt8) : ofNat bytes.length (toNat bytes) = bytes := by
  induction bytes with
  | nil => rfl
  | cons b bytes ih =>
    have hb := b.toNat_lt
    have hlow : (b.toNat + 256 * toNat bytes) % 256 = b.toNat := by omega
    have hhigh : (b.toNat + 256 * toNat bytes) / 256 = toNat bytes := by omega
    rw [toNat, List.length_cons, ofNat, hlow, hhigh, UInt8.ofNat_toNat, ih]

end CartScript.Bytes
