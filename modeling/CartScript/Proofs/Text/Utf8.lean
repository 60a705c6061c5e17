import CartScript.Text.Utf8

/-!
# Texts and their bytes

Every text is read back from its bytes.
-/

namespace CartScript.Utf8

/-! ## Bytes by their numbers -/

theorem toNat_ofNat_of_lt {n : Nat} (h : n < 256) : (UInt8.ofNat n).toNat = n := by
  rw [UInt8.toNat_ofNat', Nat.mod_eq_of_lt h]

/-- The lead bytes in terms of numbers, which is where characters are put together. -/
theorem lead?_ofNat {n : Nat} (h : n < 256) :
    lead? (UInt8.ofNat n) =
      if n < 0x80 then some ⟨n, 0, 0x80, 0xBF⟩
      else if n < 0xC2 then none
      else if n < 0xE0 then some ⟨n - 0xC0, 1, 0x80, 0xBF⟩
      else if n = 0xE0 then some ⟨0, 2, 0xA0, 0xBF⟩
      else if n = 0xED then some ⟨0xD, 2, 0x80, 0x9F⟩
      else if n < 0xF0 then some ⟨n - 0xE0, 2, 0x80, 0xBF⟩
      else if n = 0xF0 then some ⟨0, 3, 0x90, 0xBF⟩
      else if n < 0xF4 then some ⟨n - 0xF0, 3, 0x80, 0xBF⟩
      else if n = 0xF4 then some ⟨4, 3, 0x80, 0x8F⟩
      else none := by
  unfold lead?
  simp only [UInt8.lt_iff_toNat_lt, ← UInt8.toNat_inj, toNat_ofNat_of_lt h]
  rfl

/-- A byte within the bounds adds six bits to the number. -/
theorem follow_ofNat (n payload : Nat) {least greatest : UInt8} {bits : Nat} (hbits : bits < 0x40)
    (hleast : least.toNat ≤ bits + 0x80) (hgreatest : bits + 0x80 ≤ greatest.toNat)
    (rest : List UInt8) :
    follow (n + 1) least greatest payload (UInt8.ofNat (bits + 0x80) :: rest) =
      follow n 0x80 0xBF (payload * 0x40 + bits) rest := by
  have hnat : (UInt8.ofNat (bits + 0x80)).toNat = bits + 0x80 := toNat_ofNat_of_lt (by omega)
  have hbounds : least ≤ UInt8.ofNat (bits + 0x80) ∧ UInt8.ofNat (bits + 0x80) ≤ greatest := by
    rw [UInt8.le_iff_toNat_le, UInt8.le_iff_toNat_le, hnat]
    exact ⟨hleast, hgreatest⟩
  rw [follow, if_pos hbounds, hnat, Nat.add_sub_cancel]

/-- Without bounds of its own, every byte that follows is as good as any other. -/
theorem follow_plain (n payload : Nat) {bits : Nat} (hbits : bits < 0x40) (rest : List UInt8) :
    follow (n + 1) 0x80 0xBF payload (UInt8.ofNat (bits + 0x80) :: rest) =
      follow n 0x80 0xBF (payload * 0x40 + bits) rest :=
  follow_ofNat n payload hbits (Nat.le_add_left _ _)
    (Nat.add_le_add_right (Nat.le_of_lt_succ hbits) _) rest

/-! ## Characters -/

/-- The numbers of characters leave out the surrogates. -/
theorem toNat_val_bounds (c : Char) :
    c.val.toNat < 0xD800 ∨ 0xDFFF < c.val.toNat ∧ c.val.toNat < 0x110000 := c.valid

/-- A lead byte with one more byte. -/
theorem unit_two {v : Nat} (hleast : 0x80 ≤ v) (hgreatest : v ≤ 0x7FF) (rest : List UInt8) :
    unit (UInt8.ofNat (v / 64 % 32 + 192)) (UInt8.ofNat (v % 64 + 128) :: rest) =
      ⟨some (Char.ofNat v), rest⟩ := by
  rw [unit, lead?_ofNat (by omega), if_neg (by omega), if_neg (by omega), if_pos (by omega)]
  dsimp only
  rw [follow_plain _ _ (by omega), follow,
    show (v / 64 % 32 + 192 - 0xC0) * 0x40 + v % 64 = v by omega]

/-- A lead byte with two more bytes. -/
theorem unit_three {v : Nat} (hleast : 0x800 ≤ v) (hgreatest : v ≤ 0xFFFF)
    (hvalid : v < 0xD800 ∨ 0xDFFF < v) (rest : List UInt8) :
    unit (UInt8.ofNat (v / 4096 % 16 + 224)) (UInt8.ofNat (v / 64 % 64 + 128) ::
      UInt8.ofNat (v % 64 + 128) :: rest) = ⟨some (Char.ofNat v), rest⟩ := by
  rw [unit, lead?_ofNat (by omega), if_neg (by omega), if_neg (by omega), if_neg (by omega)]
  -- Two of the lead bytes narrow the bounds of the next byte.
  by_cases hoverlong : v / 4096 = 0
  · rw [if_pos (by omega)]
    dsimp only
    rw [follow_ofNat _ _ (by omega) (show 0xA0 ≤ _ by omega) (show _ ≤ 0xBF by omega),
      follow_plain _ _ (by omega), follow,
      show (0 * 0x40 + v / 64 % 64) * 0x40 + v % 64 = v by omega]
  · rw [if_neg (by omega)]
    by_cases hsurrogate : v / 4096 = 13
    · rw [if_pos (by omega)]
      dsimp only
      rw [follow_ofNat _ _ (by omega) (show 0x80 ≤ _ by omega) (show _ ≤ 0x9F by omega),
        follow_plain _ _ (by omega), follow,
        show (0xD * 0x40 + v / 64 % 64) * 0x40 + v % 64 = v by omega]
    · rw [if_neg (by omega), if_pos (by omega)]
      dsimp only
      rw [follow_plain _ _ (by omega), follow_plain _ _ (by omega), follow,
        show ((v / 4096 % 16 + 224 - 0xE0) * 0x40 + v / 64 % 64) * 0x40 + v % 64 = v by omega]

/-- A lead byte with three more bytes. -/
theorem unit_four {v : Nat} (hleast : 0x10000 ≤ v) (hgreatest : v < 0x110000) (rest : List UInt8) :
    unit (UInt8.ofNat (v / 262144 % 8 + 240)) (UInt8.ofNat (v / 4096 % 64 + 128) ::
      UInt8.ofNat (v / 64 % 64 + 128) :: UInt8.ofNat (v % 64 + 128) :: rest) =
      ⟨some (Char.ofNat v), rest⟩ := by
  rw [unit, lead?_ofNat (by omega), if_neg (by omega), if_neg (by omega), if_neg (by omega),
    if_neg (by omega), if_neg (by omega), if_neg (by omega)]
  by_cases hoverlong : v / 262144 = 0
  · rw [if_pos (by omega)]
    dsimp only
    rw [follow_ofNat _ _ (by omega) (show 0x90 ≤ _ by omega) (show _ ≤ 0xBF by omega),
      follow_plain _ _ (by omega), follow_plain _ _ (by omega), follow,
      show ((0 * 0x40 + v / 4096 % 64) * 0x40 + v / 64 % 64) * 0x40 + v % 64 = v by omega]
  · rw [if_neg (by omega)]
    by_cases hlast : v / 262144 = 4
    · rw [if_neg (by omega), if_pos (by omega)]
      dsimp only
      rw [follow_ofNat _ _ (by omega) (show 0x80 ≤ _ by omega) (show _ ≤ 0x8F by omega),
        follow_plain _ _ (by omega), follow_plain _ _ (by omega), follow,
        show ((4 * 0x40 + v / 4096 % 64) * 0x40 + v / 64 % 64) * 0x40 + v % 64 = v by omega]
    · rw [if_pos (by omega)]
      dsimp only
      rw [follow_plain _ _ (by omega), follow_plain _ _ (by omega), follow_plain _ _ (by omega),
        follow, show (((v / 262144 % 8 + 240 - 0xF0) * 0x40 + v / 4096 % 64) * 0x40 + v / 64 % 64) *
          0x40 + v % 64 = v by omega]

/-- The bytes of a character are one unit, whatever follows them. -/
theorem units_utf8EncodeChar (c : Char) (rest : List UInt8) :
    units (String.utf8EncodeChar c ++ rest) = some c :: units rest := by
  have hvalid := toNat_val_bounds c
  have hchar : Char.ofNat c.val.toNat = c := Char.ofNat_toNat c
  rw [String.utf8EncodeChar.eq_1]
  split
  · simp only [List.cons_append, List.nil_append]
    rw [units, unit, lead?_ofNat (by omega), if_pos (by omega)]
    dsimp only
    rw [follow, hchar]
  · split
    · simp only [List.cons_append, List.nil_append]
      rw [units, unit_two (by omega) (by omega), hchar]
    · split
      · simp only [List.cons_append, List.nil_append]
        rw [units, unit_three (by omega) (by omega) (by omega), hchar]
      · simp only [List.cons_append, List.nil_append]
        rw [units, unit_four (by omega) (by omega), hchar]

/-! ## Texts -/

theorem units_encode (s : String) : units (encode s) = s.toList.map some := by
  rw [encode]
  induction s.toList with
  | nil => simp [units]
  | cons c cs ih => rw [List.flatMap_cons, units_utf8EncodeChar, ih, List.map_cons]

/-- The bytes of a text are read as that text. -/
theorem decode?_encode (s : String) : decode? (encode s) = some s := by
  have hall (cs : List Char) : (cs.map some).mapM id = some cs := by
    induction cs with
    | nil => rfl
    | cons c cs ih => rw [List.map_cons, List.mapM_cons, ih]; rfl
  rw [decode?, units_encode, hall, Option.map_some, String.ofList_toList]

end CartScript.Utf8
