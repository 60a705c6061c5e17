import CartScript.Assembly.Fault

/-!
# Cartridge images

An image is a block of bytes of a fixed size.
-/

namespace CartScript

/-- The bytes of a cartridge. -/
abbrev Image := Array UInt8

namespace Image

/-- Writes bytes from a place on; those past the end are dropped. -/
def overwrite (image : Image) (start : Nat) : List UInt8 → Image
  | [] => image
  | b :: bytes => overwrite (image.setIfInBounds start b) (start + 1) bytes

@[simp]
theorem size_overwrite (image : Image) (start : Nat) (bytes : List UInt8) :
    (image.overwrite start bytes).size = image.size := by
  induction bytes generalizing image start with
  | nil => rfl
  | cons b bytes ih => simp [overwrite, ih]

/-- A byte is the one written to its place, if there is one. -/
theorem getElem?_overwrite (image : Image) (start : Nat) (bytes : List UInt8) (i : Nat)
    (h : i < image.size) :
    (image.overwrite start bytes)[i]? =
      if start ≤ i ∧ i < start + bytes.length then bytes[i - start]? else image[i]? := by
  induction bytes generalizing image start with
  | nil =>
    have hi : ¬ (start ≤ i ∧ i < start + ([] : List UInt8).length) := by
      rw [List.length_nil]
      omega
    rw [overwrite, if_neg hi]
  | cons b bytes ih =>
    rw [overwrite, ih _ _ (by simpa using h), List.length_cons]
    by_cases hi : start = i
    · subst hi
      rw [if_neg (by omega), if_pos (by omega)]
      simp [h]
    · rw [Array.getElem?_setIfInBounds_ne hi]
      by_cases hs : start + 1 ≤ i ∧ i < start + 1 + bytes.length
      · have hk : i - start = (i - (start + 1)) + 1 := by omega
        rw [if_pos hs, if_pos (by omega), hk, List.getElem?_cons_succ]
      · rw [if_neg hs, if_neg (by omega)]

/-- Bytes of the image, if all of them are there. -/
def read? (image : Image) (offset : UInt32) (size : Nat) : Option (List UInt8) :=
  if offset.toNat + size ≤ image.size then
    some (image.extract offset.toNat (offset.toNat + size)).toList
  else none

/-- Writes bytes, all of which must lie in the image. -/
def write (image : Image) (offset : UInt32) (bytes : List UInt8) : Except AssembleFault Image :=
  if offset.toNat + bytes.length ≤ image.size then .ok (image.overwrite offset.toNat bytes)
  else .error (.outOfBounds offset bytes.length)

end Image

end CartScript
