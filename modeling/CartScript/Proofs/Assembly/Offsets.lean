import CartScript.Proofs.Assembly.Footprint

/-!
# Values of a script as offsets and as addresses

A script names a place in the image by its offset or by its address.  Going to a place, the value is
held against the base of the image; writing a pointer to it, against the limit of offsets.  Both take it
for the same place, unless it lies above the base and below the limit: then the one takes the base off,
and the other adds it.
-/

namespace CartScript

/-- The place that a value leads to.  A value from the base on is an address, as far as the limit of
    offsets reaches. -/
theorem toOffset_eq_ok_iff {value : Int64} {base offset : UInt32} :
    toOffset value base = .ok offset ↔ 0 ≤ value.toInt ∧ value.toInt < 2 ^ 32 ∧
      if base.toNat ≤ value.toInt ∧ value.toInt < base.toNat + Encoding.pointerLimit then
        value.toInt = base.toNat + offset.toNat
      else value.toInt = offset.toNat := by
  have hword : ∀ n < 2 ^ 32, (UInt32.ofNat n = offset ↔ n = offset.toNat) := by
    intro n hn
    rw [← UInt32.toNat_inj, UInt32.toNat_ofNat_of_lt' hn]
  unfold toOffset
  split
  · rename_i hout
    simp only [reduceCtorEq, false_iff]
    omega
  · rename_i hin
    rw [Except.ok.injEq, Encoding.unpointer?]
    split
    · rename_i haddress
      rw [Option.getD_some, hword _ (by omega), if_pos (by omega)]
      omega
    · rename_i hoffset
      rw [Option.getD_none, hword _ (by omega), if_neg (by omega)]
      omega

/-- The address that is written for a value.  A positive value below the limit of offsets is an
    offset. -/
theorem Encoding.toInt_pointer (value : Int64) (base : UInt32) :
    (pointer value base).toInt =
      if 0 < value.toInt ∧ value.toInt < pointerLimit then value.toInt + base.toNat
      else value.toInt := by
  have hzero : (0 < value) ↔ 0 < value.toInt := by
    rw [Int64.lt_iff_toInt_lt, Int64.toInt_zero]
  simp only [pointer, hzero]
  split
  · have hlimit : pointerLimit = 2 ^ 25 := rfl
    have hbase := base.toNat_lt
    rw [Int64.toInt_add, toInt_ofNat_toNat, Int.bmod_eq_of_le (by omega) (by omega)]
  · rfl

namespace Cursor

/-- The value of the target leads to the place. -/
theorem toOffset_of_org {c next : Cursor} {target : Expr} {registry : Registry}
    {symbols : SymbolSource} {value : Int64} {span : Option Span}
    (hvalue : target.eval symbols c.offset = .ok (.known value))
    (hstep : c.step (.org target) registry symbols = .ok (span, next)) :
    toOffset value c.base = .ok next.offset := by
  simp only [step] at hstep
  obtain ⟨constant, hconstant, hstep⟩ := Except.bind_eq_ok_iff.1 hstep
  obtain ⟨offset, hoffset, hstep⟩ := Except.bind_eq_ok_iff.1 hstep
  have hsame : constantFor "ORG" target symbols c.offset = .ok value := by rw [constantFor, hvalue]
  obtain rfl := Except.ok.inj (hconstant.symm.trans hsame)
  cases hstep
  exact hoffset

/-- Where a value leads to an offset other than zero, the pointer that is written for the value is the
    address of that offset, unless the value lies between the base, if that is not zero, and the limit
    of offsets. -/
theorem pointer_of_org_iff {c next : Cursor} {target : Expr} {registry : Registry}
    {symbols : SymbolSource} {value : Int64} {span : Option Span}
    (hvalue : target.eval symbols c.offset = .ok (.known value))
    (hstep : c.step (.org target) registry symbols = .ok (span, next))
    (hpos : 0 < next.offset.toNat) (hlt : next.offset.toNat < Encoding.pointerLimit) :
    (Encoding.pointer value c.base).toInt = c.base.toNat + next.offset.toNat ↔
      c.base.toNat = 0 ∨ value.toInt ≤ c.base.toNat ∨ Encoding.pointerLimit ≤ value.toInt := by
  obtain ⟨hnonneg, hword, hplace⟩ := toOffset_eq_ok_iff.1 (toOffset_of_org hvalue hstep)
  rw [Encoding.toInt_pointer]
  split at hplace
  · -- An address: the base is taken off, and must not be added.
    rename_i haddress
    split
    · omega
    · omega
  · -- An offset, below the limit as it is: the base must be added.
    rename_i hoffset
    rw [if_pos (by omega)]
    omega

/-- A place in the image, by its address and by its offset. -/
theorem pointer_of_org_iff_in_image :
    let c : Cursor := { offset := 0, base := 0x8000000, limit := 0x1000 }
    let address : Int64 := 0x8000500
    let offset : Int64 := 0x500
    c.step (.org (.constant address)) {} (fun _ => none) = .ok (none, { c with offset := 0x500 }) ∧
      (Encoding.pointer address c.base).toInt = 0x8000500 ∧
      c.step (.org (.constant offset)) {} (fun _ => none) = .ok (none, { c with offset := 0x500 }) ∧
      (Encoding.pointer offset c.base).toInt = 0x8000500 := by
  intro c address offset
  have haddress : c.step (.org (.constant address)) {} (fun _ => none) =
      .ok (none, { c with offset := 0x500 }) := by decide +kernel
  have hoffset : c.step (.org (.constant offset)) {} (fun _ => none) =
      .ok (none, { c with offset := 0x500 }) := by decide +kernel
  refine ⟨haddress, ?_, hoffset, ?_⟩
  · exact (pointer_of_org_iff rfl haddress (by decide) (by decide)).2 (by decide)
  · exact (pointer_of_org_iff rfl hoffset (by decide) (by decide)).2 (by decide)

/-- With a base below the limit of offsets, a value above the base leads to one place, and the pointer
    that is written for it is the address of another one. -/
theorem pointer_of_org_low_base :
    let c : Cursor := { offset := 0, base := 0x1000, limit := 0x2000 }
    let value : Int64 := 0x1500
    c.step (.org (.constant value)) {} (fun _ => none) = .ok (none, { c with offset := 0x500 }) ∧
      (Encoding.pointer value c.base).toInt = 0x2500 ∧
      (Encoding.pointer value c.base).toInt ≠ c.base.toNat + 0x500 :=
  ⟨rfl, by decide, by decide⟩

end Cursor

end CartScript
