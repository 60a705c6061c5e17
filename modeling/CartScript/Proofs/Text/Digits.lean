import CartScript.Proofs.Except
import CartScript.Text.Ascii
import CartScript.Text.Digits
import CartScript.Text.Utf8
import Mathlib.Algebra.Group.Nat.Defs
import Mathlib.Data.List.Forall2

/-!
# Numbers and plain texts read back

A number that was written with digits is read as the same number, and a text of ASCII characters is
its bytes.
-/

theorem List.Forall₂.exists_mem {α β : Type} {R : α → β → Prop} {as : List α} {bs : List β} {a : α}
    (h : Forall₂ R as bs) (ha : a ∈ as) : ∃ b ∈ bs, R a b := by
  obtain ⟨i, hi, rfl⟩ := getElem_of_mem ha
  exact ⟨_, getElem_mem (h.length_eq ▸ hi), h.get hi _⟩

namespace CartScript

/-! ## Plain texts -/

namespace Ascii

/-- Characters with a number below 128. -/
def Plain (cs : List Char) : Prop := ∀ c ∈ cs, c.toNat < 128

theorem plain_of_all {cs : List Char} (h : cs.all (·.toNat < 128) = true) : Plain cs :=
  fun c hc => of_decide_eq_true (List.all_eq_true.1 h c hc)

/-- The byte with the number of a plain character. -/
def ofChar (c : Char) : UInt8 := UInt8.ofNat c.toNat

/-- The bytes of plain characters. -/
def bytes (cs : List Char) : List UInt8 := cs.map ofChar

@[simp]
theorem bytes_cons (c : Char) (cs : List Char) : bytes (c :: cs) = ofChar c :: bytes cs := rfl

@[simp]
theorem bytes_append (cs ds : List Char) : bytes (cs ++ ds) = bytes cs ++ bytes ds := List.map_append

theorem toNat_ofChar {c : Char} (h : c.toNat < 128) : (ofChar c).toNat = c.toNat := by
  rw [ofChar, UInt8.toNat_ofNat', Nat.mod_eq_of_lt (by omega)]

theorem toChar_ofChar {c : Char} (h : c.toNat < 128) : toChar (ofChar c) = c := by
  rw [toChar, toNat_ofChar h, Char.ofNat_toNat]

theorem toNat_toChar {b : UInt8} (h : b.toNat < 128) : (toChar b).toNat = b.toNat := by
  have hvalid : b.toNat.isValidChar := .inl (by omega)
  unfold toChar Char.ofNat
  rw [dif_pos hvalid]
  rfl

theorem map_toChar_bytes {cs : List Char} (h : Plain cs) : (bytes cs).map toChar = cs := by
  rw [bytes, List.map_map]
  conv => rhs; rw [← List.map_id cs]
  exact List.map_congr_left fun c hc => toChar_ofChar (h c hc)

theorem toText_bytes {cs : List Char} (h : Plain cs) : toText (bytes cs) = String.ofList cs := by
  rw [toText, map_toChar_bytes h]

end Ascii

namespace Utf8

theorem encode_append (s t : String) : encode (s ++ t) = encode s ++ encode t := by
  simp [encode]

/-- A plain text is its bytes. -/
theorem encode_of_plain {s : String} (h : Ascii.Plain s.toList) :
    encode s = Ascii.bytes s.toList := by
  have hflat : ∀ cs : List Char, Ascii.Plain cs →
      cs.flatMap String.utf8EncodeChar = Ascii.bytes cs := by
    intro cs
    induction cs with
    | nil => intro _; rfl
    | cons c cs ih =>
      intro hplain
      obtain ⟨hc, hcs⟩ := List.forall_mem_cons.1 hplain
      have hencode : String.utf8EncodeChar c = [Ascii.ofChar c] := by
        have hsmall : c.val.toNat ≤ 127 := Nat.le_of_lt_succ hc
        rw [String.utf8EncodeChar.eq_1, if_pos hsmall]
        rfl
      rw [List.flatMap_cons, hencode, ih hcs]
      rfl
  exact hflat s.toList h

/-- The text of bytes below 128 is those bytes. -/
theorem encode_toText {bytes : List UInt8} (h : ∀ b ∈ bytes, b.toNat < 128) :
    encode (Ascii.toText bytes) = bytes := by
  have hplain : Ascii.Plain (Ascii.toText bytes).toList := by
    intro c hc
    rw [Ascii.toText, String.toList_ofList] at hc
    obtain ⟨b, hb, rfl⟩ := List.mem_map.1 hc
    rw [Ascii.toNat_toChar (h b hb)]
    exact h b hb
  rw [encode_of_plain hplain, Ascii.toText, String.toList_ofList, Ascii.bytes, List.map_map]
  conv => rhs; rw [← List.map_id bytes]
  refine List.map_congr_left fun b hb => ?_
  rw [Function.comp_apply, Ascii.ofChar, Ascii.toNat_toChar (h b hb), UInt8.ofNat_toNat]
  rfl

end Utf8

/-! ## Digits -/

namespace Digits

variable {n radix : Nat} {bounds : Bounds} {cs : List Char}

/-- The digits that a number is written with. -/
theorem exists_toDigits (hradix : 1 < radix) (n : Nat) :
    ∃ ds : List Nat, (∀ d ∈ ds, d < radix) ∧ Nat.toDigits radix n = ds.map Nat.digitChar ∧
      ds.foldl (fun m d => m * radix + d) 0 = n := by
  induction n using Nat.strongRecOn with
  | _ n ih =>
    rw [Nat.toDigits_eq_if hradix]
    split
    · rename_i hlt
      exact ⟨[n], by simpa using hlt, rfl, by simp⟩
    · obtain ⟨ds, hds, hdigits, hvalue⟩ := ih (n / radix) (Nat.div_lt_self (by omega) hradix)
      refine ⟨ds ++ [n % radix], ?_, by simp [hdigits], ?_⟩
      · simpa [or_imp, forall_and] using ⟨hds, Nat.mod_lt n (by omega)⟩
      · rw [List.foldl_append, hvalue]
        exact Nat.div_add_mod' n radix

theorem forall_mem_toDigits (hradix : 1 < radix) {P : Char → Prop}
    (h : ∀ d < radix, P d.digitChar) : ∀ c ∈ Nat.toDigits radix n, P c := by
  obtain ⟨ds, hds, hdigits, -⟩ := exists_toDigits hradix n
  rw [hdigits, List.forall_mem_map]
  exact fun d hd => h d (hds d hd)

theorem forall_mem_write {P : Char → Prop} (h : ∀ d < 16, P d.digitChar.toUpper) :
    ∀ c ∈ write 16 n, P c :=
  List.forall_mem_map.2 (forall_mem_toDigits (by decide) h)

theorem le_foldl (hradix : 1 ≤ radix) (ds : List Nat) (m : Nat) :
    m ≤ ds.foldl (fun m d => m * radix + d) m := by
  induction ds generalizing m with
  | nil => exact Nat.le_refl m
  | cons d ds ih => exact Nat.le_trans (Nat.le_add_right_of_le (Nat.le_mul_of_pos_right m hradix)) (ih _)

/-- Digits are read as their number, unless it is out of bounds. -/
theorem readUpwards_eq (hradix : 1 ≤ radix) {ds : List Nat}
    (hds : List.Forall₂ (fun d c => digit? radix c = some d) ds cs) {m : Nat}
    (hm : (m : Int) ≤ bounds.greatest) :
    readUpwards bounds radix m cs =
      if ((ds.foldl (fun m d => m * radix + d) m : Nat) : Int) ≤ bounds.greatest then
        .ok (ds.foldl (fun m d => m * radix + d) m : Nat) else .error .tooLarge := by
  induction hds generalizing m with
  | nil => exact (if_pos hm).symm
  | @cons d c ds cs hd _ ih =>
    have hcast : (m : Int) * radix + d = ((m * radix + d : Nat) : Int) := by
      rw [Int.natCast_add, Int.natCast_mul]
    simp only [readUpwards, hd, List.foldl_cons, hcast]
    split
    · exact ih (by assumption)
    · rename_i hgt
      have hmore := le_foldl hradix ds (m * radix + d)
      exact (if_neg fun hle => hgt (Int.le_trans (Int.ofNat_le.2 hmore) hle)).symm

/-- Only digits are read. -/
theorem exists_of_readUpwards {m n : Int} (h : readUpwards bounds radix m cs = .ok n) :
    ∃ ds, List.Forall₂ (fun d c => digit? radix c = some d) ds cs := by
  induction cs generalizing m with
  | nil => exact ⟨[], .nil⟩
  | cons c cs ih =>
    simp only [readUpwards] at h
    split at h
    · simp at h
    · split at h
      · obtain ⟨ds, hds⟩ := ih h
        exact ⟨_ :: ds, .cons (by assumption) hds⟩
      · simp at h

/-- Which digits `readUpwards` reads. -/
theorem readUpwards_eq_ok_iff (hradix : 1 ≤ radix) {m : Nat} (hm : (m : Int) ≤ bounds.greatest)
    {n : Int} :
    readUpwards bounds radix m cs = .ok n ↔
      ∃ ds, List.Forall₂ (fun d c => digit? radix c = some d) ds cs ∧
        n = (ds.foldl (fun m d => m * radix + d) m : Nat) ∧ n ≤ bounds.greatest := by
  constructor
  · intro h
    obtain ⟨ds, hds⟩ := exists_of_readUpwards h
    rw [readUpwards_eq hradix hds hm] at h
    split at h
    · obtain rfl := Except.ok.inj h
      exact ⟨ds, hds, rfl, by assumption⟩
    · simp at h
  · rintro ⟨ds, hds, rfl, hle⟩
    rw [readUpwards_eq hradix hds hm, if_pos hle]

/-- Leading zeros do not count. -/
theorem readUpwards_zeros (hbounds : 0 ≤ bounds.greatest) (count : Nat) (cs : List Char) :
    readUpwards bounds 16 0 (List.replicate count '0' ++ cs) = readUpwards bounds 16 0 cs := by
  induction count with
  | zero => rfl
  | succ count ih =>
    have hzero : digit? 16 '0' = some 0 := by decide
    simp [List.replicate_succ, readUpwards, hzero, hbounds, ih]

/-- Digits read back. -/
theorem readUpwards_write (hn : n < 2 ^ 63) : readUpwards signed64 16 0 (write 16 n) = .ok (n : Int) := by
  have hupper : ∀ d < 16, digit? 16 d.digitChar.toUpper = some d := by decide
  obtain ⟨ds, hds, hdigits, rfl⟩ := exists_toDigits (by decide : 1 < 16) n
  refine (readUpwards_eq_ok_iff (m := 0) (by decide) (by decide)).2 ⟨ds, ?_, rfl, ?_⟩
  · rw [write, hdigits, List.map_map, List.forall₂_map_right_iff]
    exact List.forall₂_same.2 fun d hd => hupper d (hds d hd)
  · show (_ : Int) ≤ 2 ^ 63 - 1
    omega

/-- An unsigned number does not start with a sign. -/
theorem read_of_unsigned (bounds : Bounds) (radix : Nat) (hne : cs ≠ [])
    (hplus : cs.head? ≠ some '+') (hminus : cs.head? ≠ some '-') :
    read bounds radix cs = readUpwards bounds radix 0 cs := by
  unfold read
  split <;> simp_all

end Digits

/-- Padded digits determine the number. -/
theorem hexPadded_injective {width m n : Nat} (hm : m < 2 ^ 63) (hn : n < 2 ^ 63)
    (h : hexPadded width m = hexPadded width n) : m = n := by
  have hread : ∀ k < 2 ^ 63, Digits.readUpwards Digits.signed64 16 0
      (hexPadded width k).toList = .ok (k : Int) := by
    intro k hk
    rw [hexPadded, String.toList_ofList, Digits.readUpwards_zeros (by decide),
      Digits.readUpwards_write hk]
  have heq := (hread m hm).symm.trans (h ▸ hread n hn)
  exact_mod_cast Except.ok.inj heq

end CartScript
