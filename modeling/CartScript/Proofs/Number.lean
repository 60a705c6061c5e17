import CartScript.Number
import CartScript.Proofs.Text.Digits
import Mathlib.Algebra.Group.Int.Defs

/-!
# Numbers are read as what they say

A number is read as the integer that it stands for over all integers.  The least 64-bit number is an
exception: its sign is taken off before the digits are read, which alone are too many, so it is not
read with its sign in front.  With two minus signs its opposite is read, and as the least number.
-/

namespace CartScript

namespace Digits

/-- Reading downwards is reading upwards with the bound on the other side. -/
theorem readDownwards_eq_ok_iff {bounds : Bounds} {radix : Nat} {cs : List Char} {m n : Int} :
    readDownwards bounds radix (-m) cs = .ok n ↔
      readUpwards ⟨0, -bounds.least⟩ radix m cs = .ok (-n) := by
  induction cs generalizing m with
  | nil =>
    simp only [readDownwards, readUpwards, Except.ok.injEq]
    omega
  | cons c cs ih =>
    simp only [readDownwards, readUpwards]
    cases digit? radix c with
    | none => simp
    | some d =>
      have hnext : -m * radix - d = -(m * radix + d) := by
        rw [Int.neg_mul, Int.neg_add, Int.sub_eq_add_neg]
      dsimp only
      rw [hnext]
      by_cases hle : bounds.least ≤ -(m * radix + d)
      · rw [if_pos hle, if_pos (by omega), ih]
      · rw [if_neg hle, if_neg (by omega)]
        simp

theorem digit?_of_ge {radix : Nat} {c : Char} (h : 128 ≤ c.toNat) : digit? radix c = none := by
  have hgt (last : Char) (hlast : last.toNat < 128) : ¬ c ≤ last := by
    intro hle
    have : c.toNat ≤ last.toNat := UInt32.le_iff_toNat_le.1 hle
    omega
  simp [digit?, hgt '9' (by decide), hgt 'z' (by decide), hgt 'Z' (by decide)]

/-- The digits of a radix up to sixteen are the usual ones, letters in either case. -/
theorem digit?_eq_some_iff {radix d : Nat} (hradix : radix ≤ 16) {c : Char} :
    digit? radix c = some d ↔ d < radix ∧ (c = d.digitChar ∨ c = d.digitChar.toUpper) := by
  have hless : digit? radix c = some d ↔ d < radix ∧ digit? 16 c = some d := by
    simp only [digit?, Option.filter_eq_some_iff, decide_eq_true_eq]
    exact ⟨fun h => ⟨h.2, h.1, by omega⟩, fun h => ⟨h.2.1, h.1⟩⟩
  have hplain : ∀ n < 128, ∀ d < 16, digit? 16 (Char.ofNat n) = some d ↔
      Char.ofNat n = d.digitChar ∨ Char.ofNat n = d.digitChar.toUpper := by
    decide +kernel
  rw [hless, and_congr_right_iff]
  intro hd
  by_cases hc : c.toNat < 128
  · have hchar := hplain c.toNat hc d (by omega)
    rwa [Char.ofNat_toNat] at hchar
  · have hsmall : ∀ d < 16, d.digitChar.toNat < 128 ∧ d.digitChar.toUpper.toNat < 128 := by decide
    rw [digit?_of_ge (by omega)]
    simp only [reduceCtorEq, false_iff]
    have := hsmall d (by omega)
    rintro (rfl | rfl) <;> omega

end Digits

namespace Text

/-- Blanks around a text. -/
theorem exists_trim (cs : List Char) :
    ∃ front back, cs = front ++ trim cs ++ back ∧ (∀ c ∈ front, isBlank c = true) ∧
      ∀ c ∈ back, isBlank c = true := by
  refine ⟨cs.takeWhile isBlank, ((trimStart cs).reverse.takeWhile isBlank).reverse, ?_,
    List.all_eq_true.1 List.all_takeWhile, ?_⟩
  · rw [List.append_assoc, trim, trimEnd, ← List.reverse_append, List.takeWhile_append_dropWhile,
      List.reverse_reverse, trimStart, List.takeWhile_append_dropWhile]
  · exact fun c hc => List.all_eq_true.1 List.all_takeWhile c (List.mem_reverse.1 hc)

/-- A text without blanks is what remains of it with blanks around it. -/
theorem trim_eq {front core back : List Char} (hfront : ∀ c ∈ front, isBlank c = true)
    (hback : ∀ c ∈ back, isBlank c = true) (hne : core ≠ [])
    (hcore : ∀ c ∈ core, isBlank c = false) : trim (front ++ core ++ back) = core := by
  have hkeep {xs : List Char} (ys : List Char) (hxs : xs ≠ []) (h : ∀ c ∈ xs, isBlank c = false) :
      (xs ++ ys).dropWhile isBlank = xs ++ ys := by
    cases xs with
    | nil => exact absurd rfl hxs
    | cons x xs => simp [h x]
  rw [trim, trimStart, List.append_assoc, List.dropWhile_append_of_pos hfront, hkeep back hne hcore,
    trimEnd, List.reverse_append, List.dropWhile_append_of_pos (by simpa using hback)]
  have hreverse := hkeep [] (List.reverse_ne_nil_iff.2 hne) (by simpa using hcore)
  rw [List.append_nil] at hreverse
  rw [hreverse, List.reverse_reverse]

end Text

namespace Number

/-! ## Numbers as they are written -/

/-- What may stand before the digits of a number, with the radix that it names. -/
def marks : List (List Char × Nat) :=
  [([], 10), (['$'], 16), (['0', 'x'], 16), (['0', 'X'], 16), (['%'], 2), (['0', 'b'], 2),
    (['0', 'B'], 2)]

/-- The signs that may stand right before the digits. -/
def signs : List (List Char × Int) := [([], 1), (['+'], 1), (['-'], -1)]

/-- The sign in front of a number. -/
def lead (minus : Bool) : List Char := if minus then ['-'] else []

/-- Digits and the number that they make. -/
def Figures (radix : Nat) (cs : List Char) (n : Nat) : Prop :=
  ∃ ds : List Nat, ds ≠ [] ∧
    List.Forall₂ (fun d c => d < radix ∧ (c = d.digitChar ∨ c = d.digitChar.toUpper)) ds cs ∧
    ds.foldl (fun m d => m * radix + d) 0 = n

/-- A number as it may be written. -/
structure Numeral where
  /-- Whether a minus sign stands in front. -/
  minus : Bool
  /-- What names the radix. -/
  mark : List Char × Nat
  /-- The sign before the digits. -/
  sign : List Char × Int
  digits : List Char
  /-- What the digits make. -/
  number : Nat

namespace Numeral

/-- The integer without the sign in front. -/
def magnitude (u : Numeral) : Int := u.sign.2 * u.number

/-- The integer that is written. -/
def value (u : Numeral) : Int := if u.minus then -u.magnitude else u.magnitude

/-- The text is the number with blanks around it and underscores in it. -/
structure Writes (u : Numeral) (text : List Char) : Prop where
  mark : u.mark ∈ marks
  sign : u.sign ∈ signs
  digits : Figures u.mark.2 u.digits u.number
  spread : ∃ front body back, text = front ++ (lead u.minus ++ body) ++ back ∧
    (∀ c ∈ front, Text.isBlank c = true) ∧ (∀ c ∈ back, Text.isBlank c = true) ∧
    body.filter (· != '_') = u.mark.1 ++ (u.sign.1 ++ u.digits) ∧
    (u.minus = false → body.head? ≠ some '-')

end Numeral

/-! ## Which texts are read -/

variable {cs text : List Char} {n radix : Nat}

theorem figures_iff (hradix : radix ≤ 16) :
    Figures radix cs n ↔ ∃ ds, ds ≠ [] ∧ List.Forall₂ (fun d c => Digits.digit? radix c = some d) ds cs ∧
      ds.foldl (fun m d => m * radix + d) 0 = n := by
  simp only [Figures, Digits.digit?_eq_some_iff hradix]

theorem Figures.mem (h : Figures radix cs n) {c : Char} (hc : c ∈ cs) :
    ∃ d < radix, c = d.digitChar ∨ c = d.digitChar.toUpper := by
  obtain ⟨ds, -, hds, -⟩ := h
  obtain ⟨d, -, hd⟩ := hds.flip.exists_mem hc
  exact ⟨d, hd⟩

/-- Digits make one number. -/
theorem Figures.unique (hradix : radix ≤ 16) {m : Nat} (hm : Figures radix cs m)
    (hn : Figures radix cs n) : m = n := by
  obtain ⟨ds, -, hds, rfl⟩ := (figures_iff hradix).1 hm
  obtain ⟨es, -, hes, rfl⟩ := (figures_iff hradix).1 hn
  obtain rfl : ds = es :=
    Relator.LeftUnique.forall₂ (fun _ _ _ hd he => Option.some.inj (hd.symm.trans he)) hds hes
  rfl

theorem Figures.ne_nil (h : Figures radix cs n) : cs ≠ [] := by
  rintro rfl
  obtain ⟨ds, hne, hds, -⟩ := h
  exact hne (List.forall₂_nil_right_iff.1 hds)

/-- Digits do not start with a sign. -/
theorem Figures.read (hradix : radix ≤ 16) (h : Figures radix cs n) :
    Digits.read Digits.signed64 radix cs = Digits.readUpwards Digits.signed64 radix 0 cs := by
  have hsigns : ∀ d < 16, ['+', '-'].all (fun c => c != d.digitChar && c != d.digitChar.toUpper) := by
    decide
  have hhead {c : Char} (hc : c ∈ ['+', '-']) : cs.head? ≠ some c := by
    intro hhead
    obtain ⟨d, hd, heq⟩ := h.mem (List.mem_of_mem_head? hhead)
    have hne := List.all_eq_true.1 (hsigns d (Nat.lt_of_lt_of_le hd hradix)) c hc
    simp only [Bool.and_eq_true, bne_iff_ne] at hne
    exact heq.elim hne.1 hne.2
  exact Digits.read_of_unsigned _ _ h.ne_nil (hhead (by decide)) (hhead (by decide))

/-- Digits after a sign or none. -/
theorem figures_of_readUpwards {bounds : Digits.Bounds} (hbounds : 0 ≤ bounds.greatest)
    (hpos : 1 ≤ radix) (hradix : radix ≤ 16) (hne : cs ≠ []) {n : Int} :
    Digits.readUpwards bounds radix 0 cs = .ok n ↔
      ∃ k : Nat, Figures radix cs k ∧ n = k ∧ n ≤ bounds.greatest := by
  rw [← Int.natCast_zero, Digits.readUpwards_eq_ok_iff hpos hbounds]
  simp only [figures_iff hradix]
  constructor
  · rintro ⟨ds, hds, hn⟩
    refine ⟨_, ⟨ds, ?_, hds, rfl⟩, hn⟩
    rintro rfl
    exact hne (List.forall₂_nil_left_iff.1 hds)
  · rintro ⟨_, ⟨ds, -, hds, rfl⟩, hn⟩
    exact ⟨ds, hds, hn⟩

theorem read_eq_ok_iff (hpos : 1 ≤ radix) (hradix : radix ≤ 16) {n : Int} :
    Digits.read Digits.signed64 radix cs = .ok n ↔
      ∃ sign ∈ signs, ∃ digits k, Figures radix digits k ∧ cs = sign.1 ++ digits ∧ n = sign.2 * k ∧
        -2 ^ 63 ≤ n ∧ n < 2 ^ 63 := by
  have hup {cs : List Char} (hne : cs ≠ []) : Digits.readUpwards Digits.signed64 radix 0 cs = .ok n ↔
      ∃ k : Nat, Figures radix cs k ∧ n = k ∧ n ≤ 2 ^ 63 - 1 :=
    figures_of_readUpwards (by decide) hpos hradix hne
  have hdown {cs : List Char} (hne : cs ≠ []) :
      Digits.readDownwards Digits.signed64 radix 0 cs = .ok n ↔
        ∃ k : Nat, Figures radix cs k ∧ -n = k ∧ -n ≤ 2 ^ 63 := by
    rw [← Int.neg_zero, Digits.readDownwards_eq_ok_iff]
    exact figures_of_readUpwards (by decide) hpos hradix hne
  constructor
  · intro h
    unfold Digits.read at h
    split at h
    · simp at h
    · simp at h
    · obtain ⟨k, hk, rfl, hle⟩ := (hup (by assumption)).1 h
      exact ⟨(['+'], 1), by decide, _, k, hk, rfl, by omega, by omega, by omega⟩
    · simp at h
    · obtain ⟨k, hk, hn, hle⟩ := (hdown (by assumption)).1 h
      exact ⟨(['-'], -1), by decide, _, k, hk, rfl, by omega, by omega, by omega⟩
    · obtain ⟨k, hk, rfl, hle⟩ := (hup (by assumption)).1 h
      exact ⟨([], 1), by decide, _, k, hk, rfl, by omega, by omega, by omega⟩
  · rintro ⟨sign, hsign, digits, k, hk, rfl, rfl, hleast, hgreatest⟩
    have hne := hk.ne_nil
    simp only [signs, List.mem_cons, List.not_mem_nil, or_false] at hsign
    rcases hsign with rfl | rfl | rfl
    · rw [List.nil_append, hk.read hradix, hup hne]
      exact ⟨k, hk, by omega, by omega⟩
    · cases digits with
      | nil => exact absurd rfl hne
      | cons c digits =>
        exact (hup hne).2 ⟨k, hk, by omega, by omega⟩
    · cases digits with
      | nil => exact absurd rfl hne
      | cons c digits =>
        exact (hdown hne).2 ⟨k, hk, by omega, by omega⟩

/-- What stands before the digits names the radix, and there is no other way to read it. -/
theorem readMagnitude?_eq {mark : List Char × Nat} (hmark : mark ∈ marks) {sign : List Char × Int}
    (hsign : sign ∈ signs) {digits : List Char} {k : Nat} (hk : Figures mark.2 digits k) :
    readMagnitude? (mark.1 ++ (sign.1 ++ digits)) =
      (Digits.read Digits.signed64 mark.2 (sign.1 ++ digits)).toOption := by
  simp only [marks, List.mem_cons, List.not_mem_nil, or_false] at hmark
  rcases hmark with rfl | rfl | rfl | rfl | rfl | rfl | rfl
  · simp only [signs, List.mem_cons, List.not_mem_nil, or_false] at hsign
    rcases hsign with rfl | rfl | rfl
    · -- No decimal digits start like a number in another radix.
      have hfigures : ∀ d < 10, ['$', 'x', 'X', '%', 'b', 'B'].all fun c =>
          c != d.digitChar && c != d.digitChar.toUpper := by decide
      have hno {c : Char} (hc : c ∈ ['$', 'x', 'X', '%', 'b', 'B']) (hmem : c ∈ digits) : False := by
        obtain ⟨d, hd, heq⟩ := hk.mem hmem
        have hne := List.all_eq_true.1 (hfigures d hd) c hc
        simp only [Bool.and_eq_true, bne_iff_ne] at hne
        exact heq.elim hne.1 hne.2
      show readMagnitude? digits = _
      unfold readMagnitude?
      split
      · exact (hno (c := '$') (by decide) (by simp)).elim
      · exact (hno (c := 'x') (by decide) (by simp)).elim
      · exact (hno (c := 'X') (by decide) (by simp)).elim
      · exact (hno (c := '%') (by decide) (by simp)).elim
      · exact (hno (c := 'b') (by decide) (by simp)).elim
      · exact (hno (c := 'B') (by decide) (by simp)).elim
      · rfl
    · rfl
    · rfl
  all_goals rfl

theorem exists_mark {n : Int} (h : readMagnitude? cs = some n) :
    ∃ mark ∈ marks, ∃ rest, cs = mark.1 ++ rest ∧ Digits.read Digits.signed64 mark.2 rest = .ok n := by
  unfold readMagnitude? at h
  dsimp only at h
  split at h
  · exact ⟨(['$'], 16), by decide, _, rfl, Except.toOption_eq_some_iff.1 h⟩
  · exact ⟨(['0', 'x'], 16), by decide, _, rfl, Except.toOption_eq_some_iff.1 h⟩
  · exact ⟨(['0', 'X'], 16), by decide, _, rfl, Except.toOption_eq_some_iff.1 h⟩
  · exact ⟨(['%'], 2), by decide, _, rfl, Except.toOption_eq_some_iff.1 h⟩
  · exact ⟨(['0', 'b'], 2), by decide, _, rfl, Except.toOption_eq_some_iff.1 h⟩
  · exact ⟨(['0', 'B'], 2), by decide, _, rfl, Except.toOption_eq_some_iff.1 h⟩
  · exact ⟨([], 10), by decide, _, rfl, Except.toOption_eq_some_iff.1 h⟩

theorem mark_bounds : ∀ mark ∈ marks, 1 ≤ mark.2 ∧ mark.2 ≤ 16 := by decide

namespace Numeral

/-- Nothing between the blanks around a number is blank. -/
theorem Writes.exists_trim {u : Numeral} {text : List Char} (h : u.Writes text) :
    ∃ body, Text.trim text = lead u.minus ++ body ∧
      body.filter (· != '_') = u.mark.1 ++ (u.sign.1 ++ u.digits) ∧
      (u.minus = false → body.head? ≠ some '-') := by
  obtain ⟨front, body, back, rfl, hfront, hback, hbody, hhead⟩ := h.spread
  refine ⟨body, Text.trim_eq hfront hback ?_ ?_, hbody, hhead⟩
  · intro hnil
    obtain ⟨-, rfl⟩ := List.append_eq_nil_iff.1 hnil
    simp [h.digits.ne_nil] at hbody
  · intro c hc
    rcases List.mem_append.1 hc with hc | hc
    · have hleads : ∀ minus, (lead minus).all (!Text.isBlank ·) := by decide
      simpa using List.all_eq_true.1 (hleads u.minus) c hc
    · by_cases hunderscore : c = '_'
      · subst hunderscore
        decide
      · have hmem : c ∈ body.filter (· != '_') := List.mem_filter.2 ⟨hc, by simpa using hunderscore⟩
        rw [hbody, List.mem_append, List.mem_append] at hmem
        rcases hmem with hmem | hmem | hmem
        · have hmarks : ∀ mark ∈ marks, mark.1.all (!Text.isBlank ·) := by decide
          simpa using List.all_eq_true.1 (hmarks _ h.mark) c hmem
        · have hsigns : ∀ sign ∈ signs, sign.1.all (!Text.isBlank ·) := by decide
          simpa using List.all_eq_true.1 (hsigns _ h.sign) c hmem
        · have hdigits : ∀ d < 16, Text.isBlank d.digitChar = false ∧
              Text.isBlank d.digitChar.toUpper = false := by decide
          obtain ⟨d, hd, heq⟩ := h.digits.mem hmem
          have hd := hdigits d (Nat.lt_of_lt_of_le hd (mark_bounds _ h.mark).2)
          exact heq.elim (· ▸ hd.1) (· ▸ hd.2)

end Numeral

/-- Every text has a sign in front, or none. -/
theorem exists_lead (cs : List Char) :
    ∃ minus body, cs = lead minus ++ body ∧ (minus = false → body.head? ≠ some '-') := by
  by_cases h : cs.head? = some '-'
  · obtain ⟨body, rfl⟩ := List.head?_eq_some_iff.1 h
    exact ⟨true, body, rfl, by simp⟩
  · exact ⟨false, cs, rfl, fun _ => h⟩

theorem read?_of_trim {body : List Char} {minus : Bool}
    (htrim : Text.trim text = lead minus ++ body) (hhead : minus = false → body.head? ≠ some '-') :
    read? text = (readMagnitude? (body.filter (· != '_'))).map fun m =>
      Int64.ofInt (if minus then -m else m) := by
  unfold read?
  rw [htrim]
  cases minus with
  | true => simp [lead, Int64.ofInt_neg]
  | false =>
    rw [show lead false ++ body = body from rfl]
    split
    · simp at hhead
    · rfl

theorem Numeral.Writes.read?_eq {u : Numeral} (h : u.Writes text) :
    read? text = (Digits.read Digits.signed64 u.mark.2 (u.sign.1 ++ u.digits)).toOption.map fun m =>
      Int64.ofInt (if u.minus then -m else m) := by
  obtain ⟨body, htrim, hbody, hhead⟩ := h.exists_trim
  rw [read?_of_trim htrim hhead, hbody, readMagnitude?_eq h.mark h.sign h.digits]

/-- Exactly those texts of numbers are read whose magnitude is a 64-bit number. -/
theorem read?_eq_some_iff {n : Int64} :
    read? text = some n ↔ ∃ u : Numeral, u.Writes text ∧ -2 ^ 63 ≤ u.magnitude ∧ u.magnitude < 2 ^ 63 ∧
      n = Int64.ofInt u.value := by
  constructor
  · intro h
    obtain ⟨front, back, htext, hfront, hback⟩ := Text.exists_trim text
    obtain ⟨minus, body, htrim, hhead⟩ := exists_lead (Text.trim text)
    rw [read?_of_trim htrim hhead] at h
    obtain ⟨m, hm, rfl⟩ := Option.map_eq_some_iff.1 h
    obtain ⟨mark, hmark, rest, hrest, hread⟩ := exists_mark hm
    obtain ⟨sign, hsign, digits, k, hk, rfl, rfl, hleast, hgreatest⟩ :=
      (read_eq_ok_iff (mark_bounds _ hmark).1 (mark_bounds _ hmark).2).1 hread
    rw [htrim] at htext
    exact ⟨⟨minus, mark, sign, digits, k⟩,
      ⟨hmark, hsign, hk, front, body, back, htext, hfront, hback, hrest, hhead⟩, hleast, hgreatest, rfl⟩
  · rintro ⟨u, hu, hleast, hgreatest, rfl⟩
    have hread := (read_eq_ok_iff (mark_bounds _ hu.mark).1 (mark_bounds _ hu.mark).2).2
      ⟨u.sign, hu.sign, u.digits, u.number, hu.digits, rfl, rfl, hleast, hgreatest⟩
    rw [hu.read?_eq, hread]
    rfl

/-! ## Exactness -/

theorem Numeral.value_of_magnitude (u : Numeral) :
    u.value = u.magnitude ∨ u.minus = true ∧ u.value = -u.magnitude := by
  rw [value]
  split
  · exact .inr ⟨by assumption, rfl⟩
  · exact .inl rfl

/-- What is read is the integer that is written, or the least number. -/
theorem exists_writes {n : Int64} (h : read? text = some n) :
    ∃ u : Numeral, u.Writes text ∧ (n.toInt = u.value ∨ u.value = 2 ^ 63 ∧ n = Int64.minValue) := by
  obtain ⟨u, hu, hleast, hgreatest, rfl⟩ := read?_eq_some_iff.1 h
  refine ⟨u, hu, ?_⟩
  have hcases := u.value_of_magnitude
  by_cases hvalue : u.value = 2 ^ 63
  · exact .inr ⟨hvalue, by rw [hvalue]; decide⟩
  · exact .inl (Int64.toInt_ofInt_of_le (by omega) (by omega))

/-- Numbers are read exactly, but for the least one.  A number with its sign first is read as what it
    is, in any radix, with any underscores and blanks, unless it is the least one, which is not read.
    Whatever is read is the integer that is written, unless two minus signs make it one more than the
    greatest number: then the least one is read. -/
theorem parse?_exact_but_least (text : String) (n : Int64) :
    (∀ u : Numeral, u.Writes text.toList → u.sign = ([], 1) → u.value = n.toInt →
      parse? text = if n = Int64.minValue then none else some n) ∧
    (parse? text = some n → ∃ u : Numeral, u.Writes text.toList ∧
      (n.toInt = u.value ∨ u.value = 2 ^ 63 ∧ n = Int64.minValue)) := by
  constructor
  · intro u hu hsign hvalue
    have hmagnitude : u.magnitude = u.number := by
      rw [Numeral.magnitude, hsign, Int.one_mul]
    have hrange := And.intro n.le_toInt n.toInt_lt
    have hbounds := mark_bounds _ hu.mark
    have hcases := u.value_of_magnitude
    split
    · rename_i hleast
      -- The digits make a number that is out of reach.
      have hnumber : u.number = 2 ^ 63 := by
        rw [hleast, Int64.toInt_minValue] at hvalue
        omega
      refine Option.eq_none_iff_forall_ne_some.2 fun other h => ?_
      rw [parse?, hu.read?_eq, Option.map_eq_some_iff] at h
      obtain ⟨m, hm, -⟩ := h
      obtain ⟨k, hk, rfl, hle⟩ : ∃ k : Nat, Figures u.mark.2 u.digits k ∧ m = k ∧ m ≤ 2 ^ 63 - 1 := by
        rw [hsign, List.nil_append, hu.digits.read hbounds.2, Except.toOption_eq_some_iff] at hm
        exact (figures_of_readUpwards (by decide) hbounds.1 hbounds.2 hu.digits.ne_nil).1 hm
      have heq := hk.unique hbounds.2 hu.digits
      omega
    · rename_i hne
      have hne : n.toInt ≠ -2 ^ 63 := fun heq => hne (Int64.toInt_inj.1 (heq.trans Int64.toInt_minValue.symm))
      exact read?_eq_some_iff.2 ⟨u, hu, by omega, by omega, by rw [hvalue, Int64.ofInt_toInt]⟩
  · exact exists_writes

/-- A number with blanks around it and underscores among its digits. -/
theorem parse?_exact_but_least_hex :
    ∃ u : Numeral, u.Writes " -$1_F_ ".toList ∧ u.sign = ([], 1) ∧ u.value = (-31 : Int64).toInt ∧
      parse? " -$1_F_ " = some (-31) := by
  have hfigures : Figures 16 ['1', 'F'] 31 := ⟨[1, 15], by decide, by simp; decide, rfl⟩
  let u : Numeral := ⟨true, (['$'], 16), ([], 1), ['1', 'F'], 31⟩
  have hu : u.Writes " -$1_F_ ".toList :=
    ⟨by decide, by decide, hfigures, [' '], ['$', '1', '_', 'F', '_'], [' '], by decide,
      List.forall_mem_singleton.2 (by decide), List.forall_mem_singleton.2 (by decide), by decide,
      by decide⟩
  exact ⟨u, hu, rfl, rfl, (parse?_exact_but_least _ (-31)).1 u hu rfl rfl⟩

/-- The least number is not read, though it is written with its sign first, and one more than the
    greatest number is read as the least. -/
theorem parse?_inexact_least :
    (∃ u : Numeral, u.Writes "-9223372036854775808".toList ∧ u.sign = ([], 1) ∧
      u.value = Int64.minValue.toInt) ∧
    parse? "-9223372036854775808" = none ∧
    (∃ u : Numeral, u.Writes "--9223372036854775808".toList ∧ u.value = 2 ^ 63) ∧
    parse? "--9223372036854775808" = some Int64.minValue := by
  have hread : Digits.readUpwards ⟨0, 2 ^ 63⟩ 10 0 "9223372036854775808".toList = .ok (2 ^ 63) := by
    decide +kernel
  obtain ⟨k, hfigures, hk, -⟩ :=
    (figures_of_readUpwards (by decide) (by decide) (by decide) (by decide)).1 hread
  obtain rfl : k = 2 ^ 63 := by omega
  have hwritten (sign : List Char × Int) (hsign : sign ∈ signs) (text : String)
      (htext : text.toList = '-' :: (sign.1 ++ "9223372036854775808".toList)) :
      Numeral.Writes ⟨true, ([], 10), sign, "9223372036854775808".toList, 2 ^ 63⟩ text.toList := by
    have hkept : ∀ sign ∈ signs, (sign.1 ++ "9223372036854775808".toList).filter (· != '_') =
        sign.1 ++ "9223372036854775808".toList := by decide +kernel
    exact ⟨.head _, hsign, hfigures, [], _, [], by rw [htext, List.append_nil]; rfl,
      by simp, by simp, hkept sign hsign, by simp⟩
  exact ⟨⟨_, hwritten ([], 1) (by decide) _ (by decide +kernel), rfl, by decide⟩, by decide +kernel,
    ⟨_, hwritten (['-'], -1) (by decide) _ (by decide +kernel), by decide⟩, by decide +kernel⟩

end Number

end CartScript
