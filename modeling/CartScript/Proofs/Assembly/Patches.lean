import Mathlib.Data.List.Basic
import Mathlib.Data.List.Pairwise
import CartScript.Assembly.Layout

/-!
# Bytes that lie apart

Patches that lie apart from each other may be written in any order, and each of them is found again in
the bytes that come out.
-/

namespace CartScript

/-! ## Intervals -/

theorem Interval.contains_iff {a : Interval} {i : Nat} :
    a.contains i = true ↔ a.start ≤ i ∧ i < a.stop := by
  simp [contains]

theorem Interval.contains_eq_false_iff {a : Interval} {i : Nat} :
    a.contains i = false ↔ i < a.start ∨ a.stop ≤ i := by
  rw [← Bool.not_eq_true, contains_iff]
  omega

/-- One interval ends before the other one starts. -/
def Interval.Apart (a b : Interval) : Prop := a.stop ≤ b.start ∨ b.stop ≤ a.start

instance (a b : Interval) : Decidable (a.Apart b) := inferInstanceAs (Decidable (_ ∨ _))

theorem Interval.Apart.symm {a b : Interval} (h : a.Apart b) : b.Apart a := Or.symm h

/-! ## Images -/

namespace Image

variable {bytes : List UInt8} {i start : Nat}

/-- `overwrite` leaves the other bytes as they are. -/
theorem getElem?_overwrite_of_outside (image : Image) (h : i < start ∨ start + bytes.length ≤ i) :
    (image.overwrite start bytes)[i]? = image[i]? := by
  by_cases hi : i < image.size
  · rw [getElem?_overwrite _ _ _ _ hi, if_neg (by omega)]
  · rw [Array.getElem?_eq_none (by simpa using hi), Array.getElem?_eq_none (by simpa using hi)]

theorem getElem?_overwrite_of_inside (image : Image) (hstart : start ≤ i)
    (hstop : i < start + bytes.length) (hi : i < image.size) :
    (image.overwrite start bytes)[i]? = bytes[i - start]? := by
  rw [getElem?_overwrite _ _ _ _ hi, if_pos ⟨hstart, hstop⟩]

/-- Bytes that share no place are written in either order. -/
theorem overwrite_comm (image : Image) {a b : Nat} {xs ys : List UInt8}
    (h : ∀ i, a ≤ i ∧ i < a + xs.length → i < b ∨ b + ys.length ≤ i) :
    (image.overwrite a xs).overwrite b ys = (image.overwrite b ys).overwrite a xs := by
  refine Array.ext_getElem? fun i => ?_
  by_cases hi : i < image.size
  · rw [getElem?_overwrite _ _ _ _ (by simpa using hi), getElem?_overwrite _ _ _ _ hi,
      getElem?_overwrite _ _ _ _ (by simpa using hi), getElem?_overwrite _ _ _ _ hi]
    -- A byte is written by one of the two at most.
    by_cases ha : a ≤ i ∧ i < a + xs.length
    · have hb := h i ha
      rw [if_neg (by omega), if_pos ha, if_pos ha]
    · rw [if_neg ha, if_neg ha]
  · rw [Array.getElem?_eq_none (by simpa using hi), Array.getElem?_eq_none (by simpa using hi)]

/-- Writing bytes that are there already changes nothing. -/
theorem overwrite_eq_self {image : Image}
    (h : ∀ i, i < bytes.length → start + i < image.size → image[start + i]? = bytes[i]?) :
    image.overwrite start bytes = image := by
  refine Array.ext_getElem? fun i => ?_
  by_cases hi : i < image.size
  · rw [getElem?_overwrite _ _ _ _ hi]
    split
    · rename_i hin
      have hk := h (i - start) (by omega) (by omega)
      rw [Nat.add_sub_cancel' hin.1] at hk
      exact hk.symm
    · rfl
  · rw [Array.getElem?_eq_none (by simpa using hi), Array.getElem?_eq_none (by simpa using hi)]

end Image

/-! ## Patches -/

namespace Patch

def interval (p : Patch) : Interval := ⟨p.start, p.start + p.bytes.length⟩

/-- Patches of which any two lie apart. -/
def Disjoint (patches : List Patch) : Prop := patches.Pairwise fun p q => p.interval.Apart q.interval

/-- Writes a patch. -/
def apply (image : Image) (p : Patch) : Image := image.overwrite p.start p.bytes

theorem render_eq (size : Nat) (patches : List Patch) :
    render size patches = (patches.foldl apply (Array.replicate size 0)).toList := rfl

theorem size_foldl_apply (patches : List Patch) (image : Image) :
    (patches.foldl apply image).size = image.size := by
  induction patches generalizing image with
  | nil => rfl
  | cons p patches ih => rw [List.foldl_cons, ih, apply, Image.size_overwrite]

@[simp]
theorem length_render (size : Nat) (patches : List Patch) : (render size patches).length = size := by
  rw [render_eq, Array.length_toList, size_foldl_apply, Array.size_replicate]

variable {others patches : List Patch} {i size : Nat}

/-- Patches that lie apart are written in any order. -/
theorem foldl_apply_perm (h : patches.Perm others) (hd : Disjoint patches) (image : Image) :
    patches.foldl apply image = others.foldl apply image := by
  -- It is enough to exchange two of them; a patch may occur twice, and then the order does not
  -- matter.
  refine h.foldl_eq' (fun p hp q hq bytes => ?_) image
  by_cases hpq : p = q
  · rw [hpq]
  · have : Std.Symm fun p q : Patch => p.interval.Apart q.interval := ⟨fun _ _ => Interval.Apart.symm⟩
    have happart := hd.forall hp hq hpq
    simp only [Interval.Apart, interval] at happart
    exact Image.overwrite_comm bytes fun i hi => by omega

/-- Patches that lie apart are written in any order. -/
theorem render_perm (h : patches.Perm others) (hd : Disjoint patches) :
    render size patches = render size others := by
  rw [render_eq, render_eq, foldl_apply_perm h hd]

theorem getElem?_foldl_of_uncovered (h : ∀ p ∈ patches, p.interval.contains i = false)
    (image : Image) : (patches.foldl apply image)[i]? = image[i]? := by
  induction patches generalizing image with
  | nil => rfl
  | cons p patches ih =>
    rw [List.foldl_cons, ih fun q hq => h q (.tail _ hq)]
    exact Image.getElem?_overwrite_of_outside _
      (Interval.contains_eq_false_iff.1 (h p (.head _)))

/-- A byte that a patch covers is the patch's, if the patches lie apart. -/
theorem getElem?_render_of_mem (hd : Disjoint patches) (hi : i < size) {p : Patch}
    (hp : p ∈ patches) (hcovers : p.interval.contains i = true) :
    (render size patches)[i]? = p.bytes[i - p.start]? := by
  obtain ⟨first, rest, rfl⟩ := List.append_of_mem hp
  obtain ⟨_, hrest, _⟩ := List.pairwise_append.1 hd
  obtain ⟨hstart, hstop⟩ := Interval.contains_iff.1 hcovers
  -- The patches after this one lie apart from it, so its bytes stay.
  have huncovered : ∀ q ∈ rest, q.interval.contains i = false := by
    intro q hq
    have happart := (List.pairwise_cons.1 hrest).1 q hq
    rw [Interval.contains_eq_false_iff]
    unfold Interval.Apart at happart
    omega
  rw [render_eq, Array.getElem?_toList, List.foldl_append, List.foldl_cons,
    getElem?_foldl_of_uncovered huncovered]
  refine Image.getElem?_overwrite_of_inside _ hstart hstop ?_
  rw [size_foldl_apply, Array.size_replicate]
  exact hi

end Patch

end CartScript
