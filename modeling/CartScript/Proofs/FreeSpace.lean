import CartScript.Proofs.Assembly.Patches
import Mathlib.Algebra.Group.Nat.Defs

/-!
# What an allocator hands out

An allocator keeps what is taken as sorted intervals that lie apart, and looks for free runs in one
walk over the image and the intervals.  The bytes that it hands out are free, lie in the image, do
not include offset 0, and are taken from then on.
-/

namespace CartScript

namespace Interval

/-- Sorted intervals with gaps between them, none of which is empty. -/
structure Separated (l : List Interval) : Prop where
  gaps : l.Pairwise fun a b => a.stop < b.start
  nonempty : ∀ a ∈ l, a.start < a.stop

theorem Separated.nil : Separated [] := ⟨.nil, by simp⟩

variable {l : List Interval} {i : Interval}

theorem Separated.tail {a : Interval} (h : Separated (a :: l)) : Separated l :=
  ⟨(List.pairwise_cons.1 h.gaps).2, fun b hb => h.nonempty b (.tail _ hb)⟩

/-- A new interval does not reach below itself and the others. -/
theorem lt_start_of_mem_insert {bound : Nat} (hi : bound < i.start) (hl : ∀ a ∈ l, bound < a.start) :
    ∀ a ∈ i.insert l, bound < a.start := by
  induction l generalizing i with
  | nil => simpa [insert] using hi
  | cons other rest ih =>
    obtain ⟨hother, hrest⟩ := List.forall_mem_cons.1 hl
    intro a ha
    rw [insert] at ha
    split at ha
    · rcases List.mem_cons.1 ha with rfl | ha
      · exact hother
      · exact ih hi hrest a ha
    · split at ha
      · exact ih (by simp only; omega) hrest a ha
      · rcases List.mem_cons.1 ha with rfl | ha
        · exact hi
        · exact hl a ha

/-- Intervals stay sorted with gaps between them when one is added. -/
theorem Separated.insert (hi : i.start < i.stop) (h : Separated l) : Separated (i.insert l) := by
  induction l generalizing i with
  | nil => exact ⟨List.pairwise_singleton _ _, by simpa [Interval.insert] using hi⟩
  | cons other rest ih =>
    obtain ⟨hgap, _⟩ := List.pairwise_cons.1 h.gaps
    have hother := h.nonempty other (.head _)
    rw [Interval.insert]
    split
    · -- The new interval goes behind the first one.
      rename_i hbehind
      have hrest := ih hi h.tail
      refine ⟨List.pairwise_cons.2 ⟨?_, hrest.gaps⟩, List.forall_mem_cons.2 ⟨hother, hrest.nonempty⟩⟩
      exact lt_start_of_mem_insert hbehind hgap
    · split
      · -- They meet and become one, which may meet others.
        refine ih ?_ h.tail
        simp only
        omega
      · rename_i hbefore
        refine ⟨List.pairwise_cons.2 ⟨?_, h.gaps⟩, List.forall_mem_cons.2 ⟨hi, h.nonempty⟩⟩
        refine List.forall_mem_cons.2 ⟨by omega, fun a ha => ?_⟩
        have := hgap a ha
        omega

/-- A new interval adds exactly its own offsets. -/
theorem any_contains_insert (hi : i.start < i.stop) (hl : ∀ a ∈ l, a.start < a.stop) (offset : Nat) :
    (i.insert l).any (·.contains offset) = (i.contains offset || l.any (·.contains offset)) := by
  induction l generalizing i with
  | nil => simp [insert]
  | cons other rest ih =>
    obtain ⟨hother, hrest⟩ := List.forall_mem_cons.1 hl
    rw [insert]
    split
    · rw [List.any_cons, ih hi hrest, List.any_cons, Bool.or_left_comm]
    · split
      · rename_i hbehind hbefore
        -- They overlap or touch, so there is no gap that the merged interval would fill.
        have hmerged : (⟨min i.start other.start, max i.stop other.stop⟩ : Interval).contains offset =
            (i.contains offset || other.contains offset) := by
          rw [Bool.eq_iff_iff, Bool.or_eq_true, contains_iff, contains_iff, contains_iff]
          dsimp only
          omega
        rw [ih (by simp only; omega) hrest, hmerged, List.any_cons, Bool.or_assoc]
      · rw [List.any_cons]

/-- The first of the intervals that end after an offset tells whether one of them contains it. -/
theorem head?_any_of_separated (h : Separated l) {offset : Nat}
    (hstop : ∀ a, l.head? = some a → offset < a.stop) :
    l.head?.any (·.start ≤ offset) = l.any (·.contains offset) := by
  cases l with
  | nil => rfl
  | cons first rest =>
    obtain ⟨hgap, _⟩ := List.pairwise_cons.1 h.gaps
    have hfirst := hstop first rfl
    rw [Bool.eq_iff_iff]
    simp only [List.head?_cons, Option.any_some, decide_eq_true_eq, List.any_eq_true]
    constructor
    · intro hstart
      exact ⟨first, .head _, contains_iff.2 ⟨hstart, hfirst⟩⟩
    · rintro ⟨a, ha, hcontains⟩
      obtain ⟨hstart, _⟩ := contains_iff.1 hcontains
      rcases List.mem_cons.1 ha with rfl | ha
      · exact hstart
      · have := hgap a ha
        omega

/-- What is dropped ends at or before the offset. -/
theorem endingAfter_spec (offset : Nat) (l : List Interval) :
    (∃ passed, l = passed ++ endingAfter offset l ∧ ∀ a ∈ passed, a.stop ≤ offset) ∧
      ∀ a, (endingAfter offset l).head? = some a → offset < a.stop := by
  induction l with
  | nil => exact ⟨⟨[], by simp [endingAfter]⟩, by simp [endingAfter]⟩
  | cons first rest ih =>
    rw [endingAfter]
    split
    · rename_i hpassed
      obtain ⟨⟨passed, hrest, hstop⟩, hhead⟩ := ih
      refine ⟨⟨first :: passed, by rw [List.cons_append, ← hrest], ?_⟩, hhead⟩
      exact List.forall_mem_cons.2 ⟨hpassed, hstop⟩
    · rename_i hahead
      refine ⟨⟨[], by simp⟩, ?_⟩
      rintro a ⟨⟩
      omega

end Interval

namespace Allocator

open CartScript.Interval (Separated)

/-- An allocator whose taken intervals are sorted. -/
def Sorted (a : Allocator) : Prop := Separated a.taken

variable {a b : Allocator} {i offset place size start : Nat} {ahead taken : List Interval}

theorem Sorted.reserve (h : a.Sorted) (i : Interval) : (a.reserve i).Sorted := by
  unfold Allocator.reserve
  split
  · exact h
  · rename_i hne
    simp only [Interval.isEmpty, decide_eq_true_eq] at hne
    exact Separated.insert (by omega) h

/-- Reserving takes exactly the offsets of the interval. -/
theorem isTaken_reserve (h : a.Sorted) (i : Interval) (offset : Nat) :
    (a.reserve i).isTaken offset = (i.contains offset || a.isTaken offset) := by
  unfold Allocator.reserve
  split
  · rename_i hempty
    simp only [Interval.isEmpty, decide_eq_true_eq] at hempty
    have hno : i.contains offset = false := Interval.contains_eq_false_iff.2 (by omega)
    rw [hno, Bool.false_or]
  · rename_i hne
    simp only [Interval.isEmpty, decide_eq_true_eq] at hne
    exact Interval.any_contains_insert (by omega) h.nonempty offset

@[simp]
theorem image_reserve (a : Allocator) (i : Interval) : (a.reserve i).image = a.image := by
  unfold reserve
  split <;> rfl

@[simp]
theorem policy_reserve (a : Allocator) (i : Interval) : (a.reserve i).policy = a.policy := by
  unfold reserve
  split <;> rfl

/-! ## Runs -/

/-- The taken intervals that a walk has not passed yet. -/
def Ahead (a : Allocator) (offset : Nat) (ahead : List Interval) : Prop :=
  ∃ passed, a.taken = passed ++ ahead ∧ ∀ i ∈ passed, i.stop ≤ offset

theorem Ahead.mono {offset' : Nat} (h : a.Ahead offset ahead) (hle : offset ≤ offset') :
    a.Ahead offset' ahead := by
  obtain ⟨passed, htaken, hstop⟩ := h
  exact ⟨passed, htaken, fun i hi => Nat.le_trans (hstop i hi) hle⟩

theorem Ahead.endingAfter (h : a.Ahead offset ahead) :
    a.Ahead offset (Interval.endingAfter offset ahead) := by
  obtain ⟨passed, htaken, hstop⟩ := h
  obtain ⟨⟨dropped, hahead, hdropped⟩, _⟩ := Interval.endingAfter_spec offset ahead
  refine ⟨passed ++ dropped, by rw [List.append_assoc, ← hahead, htaken], fun i hi => ?_⟩
  rcases List.mem_append.1 hi with hi | hi
  · exact hstop i hi
  · exact hdropped i hi

/-- Of the intervals ahead, the first one that ends after an offset tells whether it is taken. -/
theorem isTaken_eq_head? (h : a.Sorted) (hahead : a.Ahead offset ahead) :
    a.isTaken offset = (Interval.endingAfter offset ahead).head?.any (·.start ≤ offset) := by
  obtain ⟨passed, htaken, hstop⟩ := hahead.endingAfter
  have hsuffix : Separated (Interval.endingAfter offset ahead) := by
    unfold Sorted at h
    rw [htaken] at h
    exact ⟨(List.pairwise_append.1 h.gaps).2.1,
      fun i hi => h.nonempty i (List.mem_append.2 (.inr hi))⟩
  -- What ends at or before the offset does not contain it.
  have hpassed : passed.any (·.contains offset) = false := by
    rw [List.any_eq_false]
    intro i hi
    rw [Bool.not_eq_true, Interval.contains_eq_false_iff]
    exact .inr (hstop i hi)
  rw [isTaken, htaken, List.any_append, hpassed, Bool.false_or,
    Interval.head?_any_of_separated hsuffix (Interval.endingAfter_spec offset ahead).2]

/-- The walk sees which bytes are free. -/
theorem isOpen_eq_isFree (h : a.Sorted) (hahead : a.Ahead offset ahead) :
    a.isOpen (Interval.endingAfter offset ahead) offset = a.isFree offset := by
  rw [isOpen, isFree, isTaken_eq_head? h hahead]
  cases a.image[offset]? <;> simp

theorem lt_size_of_isFree (h : a.isFree i = true) : i < a.image.size := by
  by_contra hge
  simp [isFree, Array.getElem?_eq_none (Nat.not_lt.1 hge)] at h

/-- A maximal run of free bytes among those from `start` on. -/
structure IsRun (a : Allocator) (start : Nat) (run : Interval) : Prop where
  lower : start ≤ run.start
  nonempty : run.start < run.stop
  free : ∀ i, run.start ≤ i → i < run.stop → a.isFree i = true
  left : start < run.start → a.isFree (run.start - 1) = false
  right : a.isFree run.stop = false

section

variable {run : Interval} {opened : Option Nat} {count first : Nat}

/-- No run starts at a byte that is not free. -/
theorem IsRun.start_ne (h : a.IsRun start run) (hfree : a.isFree offset = false) :
    run.start ≠ offset := by
  rintro rfl
  rw [h.free run.start (Nat.le_refl _) h.nonempty] at hfree
  simp at hfree

/-- Runs that overlap are the same. -/
theorem IsRun.eq_of_overlap {other : Interval} (h : a.IsRun start run) (hother : a.IsRun start other)
    (hle : run.start ≤ other.start) (hlt : other.start < run.stop) : other = run := by
  have hstart : other.start = run.start := by
    by_contra hne
    -- The byte before the second run lies in the first one.
    have hleft := hother.left (by have := h.lower; omega)
    rw [h.free _ (by omega) (by omega)] at hleft
    simp at hleft
  have hstop : other.stop = run.stop := by
    by_contra hne
    rcases Nat.lt_or_gt_of_ne hne with hshort | hlong
    · have hright := hother.right
      rw [h.free _ (by have := hother.nonempty; omega) hshort] at hright
      simp at hright
    · have hright := h.right
      rw [hother.free _ (by omega) hlong] at hright
      simp at hright
  cases other
  cases run
  simp_all

/-- Where a walk from `start` on stands: before `offset` comes the run that is open, or else a byte
    that is not free. -/
structure Walked (a : Allocator) (start offset : Nat) (opened : Option Nat) : Prop where
  lower : start ≤ opened.getD offset
  nonempty : ∀ first, opened = some first → first < offset
  free : ∀ i, opened.getD offset ≤ i → i < offset → a.isFree i = true
  left : start < opened.getD offset → a.isFree (opened.getD offset - 1) = false

/-- No run is open at the start. -/
theorem Walked.begin (a : Allocator) (start : Nat) : a.Walked start start none :=
  ⟨Nat.le_refl _, by simp, fun _ hle hlt => absurd hle (Nat.not_le.2 hlt),
    fun h => absurd h (Nat.lt_irrefl _)⟩

/-- A free byte opens a run or belongs to the open one. -/
theorem Walked.of_free (h : a.Walked start offset opened) (hfree : a.isFree offset = true) :
    a.Walked start (offset + 1) (some (opened.getD offset)) := by
  have hle : opened.getD offset ≤ offset := by
    cases opened with
    | none => exact Nat.le_refl _
    | some first => exact Nat.le_of_lt (h.nonempty first rfl)
  refine ⟨h.lower, ?_, ?_, h.left⟩
  · rintro _ ⟨⟩
    omega
  · intro i hi hlt
    by_cases heq : i = offset
    · rw [heq]
      exact hfree
    · exact h.free i hi (by omega)

/-- After a byte that is not free no run is open. -/
theorem Walked.of_not_free (h : a.Walked start offset opened) (hfree : a.isFree offset = false) :
    a.Walked start (offset + 1) none := by
  refine ⟨?_, by simp, fun i hi hlt => absurd hi (Nat.not_le.2 hlt), fun _ => hfree⟩
  show start ≤ offset + 1
  have hlower := h.lower
  cases opened with
  | none => exact Nat.le_succ_of_le hlower
  | some first => exact Nat.le_succ_of_le (Nat.le_trans hlower (Nat.le_of_lt (h.nonempty first rfl)))

/-- The open run is complete before a byte that is not free. -/
theorem Walked.isRun (h : a.Walked start offset (some first)) (hfree : a.isFree offset = false) :
    a.IsRun start ⟨first, offset⟩ :=
  ⟨h.lower, h.nonempty first rfl, h.free, h.left, hfree⟩

/-- A run that starts in the open one is the open one. -/
theorem Walked.mem_iff (h : a.Walked start offset (some first)) (hfree : a.isFree offset = false) :
    a.IsRun start run ∧ first ≤ run.start ↔
      run = ⟨first, offset⟩ ∨ a.IsRun start run ∧ offset + 1 ≤ run.start := by
  have hopen := h.isRun hfree
  constructor
  · rintro ⟨hrun, hle⟩
    by_cases hlt : run.start < offset
    · exact .inl (hopen.eq_of_overlap hrun hle hlt)
    · have hne := hrun.start_ne hfree
      exact .inr ⟨hrun, by omega⟩
  · rintro (rfl | ⟨hrun, hle⟩)
    · exact ⟨hopen, Nat.le_refl _⟩
    · exact ⟨hrun, by have := h.nonempty first rfl; omega⟩

/-- A free byte keeps the run open, or opens one. -/
theorem runs_of_free (ha : a.Sorted) (hahead : a.Ahead offset ahead) (hfree : a.isFree offset = true) :
    a.runs (count + 1) offset ahead opened =
      a.runs count (offset + 1) (Interval.endingAfter offset ahead) (some (opened.getD offset)) := by
  cases opened <;> simp [runs, isOpen_eq_isFree ha hahead, hfree]

/-- A byte that is not free ends the open run. -/
theorem runs_of_not_free (ha : a.Sorted) (hahead : a.Ahead offset ahead)
    (hfree : a.isFree offset = false) :
    a.runs (count + 1) offset ahead opened = (opened.map (Interval.mk · offset)).toList ++
      a.runs count (offset + 1) (Interval.endingAfter offset ahead) none := by
  cases opened <;> simp [runs, isOpen_eq_isFree ha hahead, hfree]

/-- The runs that a walk to the end of the image finds are the maximal ones that it has not passed. -/
theorem mem_runs_iff (ha : a.Sorted) (hahead : a.Ahead offset ahead)
    (hend : a.image.size ≤ offset + count) (hwalk : a.Walked start offset opened) :
    run ∈ a.runs count offset ahead opened ↔
      a.IsRun start run ∧ opened.getD offset ≤ run.start := by
  induction count generalizing offset ahead opened with
  | zero =>
    have hlast : a.isFree offset = false := by
      rw [← Bool.not_eq_true]
      exact fun hfree => Nat.not_lt.2 hend (lt_size_of_isFree hfree)
    have hpassed : ¬ (a.IsRun start run ∧ offset ≤ run.start) := by
      rintro ⟨hrun, hle⟩
      have := lt_size_of_isFree (hrun.free run.start (Nat.le_refl _) hrun.nonempty)
      omega
    cases opened with
    | none => simpa [runs] using hpassed
    | some first =>
      rw [runs, List.mem_singleton, Option.getD_some, hwalk.mem_iff hlast]
      refine ⟨.inl, ?_⟩
      rintro (hrun | ⟨hrun, hle⟩)
      · exact hrun
      · exact absurd ⟨hrun, Nat.le_of_succ_le hle⟩ hpassed
  | succ count ih =>
    have hnext := hahead.endingAfter.mono (Nat.le_succ offset)
    have hend' : a.image.size ≤ offset + 1 + count := by omega
    cases hfree : a.isFree offset with
    | true =>
      rw [runs_of_free ha hahead hfree]
      exact ih hnext hend' (hwalk.of_free hfree)
    | false =>
      rw [runs_of_not_free ha hahead hfree, List.mem_append,
        ih hnext hend' (hwalk.of_not_free hfree), Option.getD_none]
      cases opened with
      | none =>
        simp only [Option.map_none, Option.toList_none, List.not_mem_nil, false_or, Option.getD_none]
        refine and_congr_right fun hrun => ?_
        have hne := hrun.start_ne hfree
        omega
      | some first =>
        rw [Option.map_some, Option.toList_some, List.mem_singleton]
        exact (hwalk.mem_iff hfree).symm

/-- The runs of the image from an offset on. -/
theorem mem_freeRuns_iff (ha : a.Sorted) : run ∈ a.freeRuns start ↔ a.IsRun start run := by
  rw [freeRuns, mem_runs_iff ha ⟨[], rfl, by simp⟩ (by omega) (Walked.begin a start)]
  exact and_iff_left_of_imp IsRun.lower

/-- A walk finds runs from the lowest to the highest. -/
theorem pairwise_runs (ha : a.Sorted) (hahead : a.Ahead offset ahead)
    (hend : a.image.size ≤ offset + count) (hwalk : a.Walked start offset opened) :
    (a.runs count offset ahead opened).Pairwise fun i j => i.stop < j.start := by
  induction count generalizing offset ahead opened with
  | zero => cases opened <;> simp [runs]
  | succ count ih =>
    have hnext := hahead.endingAfter.mono (Nat.le_succ offset)
    have hend' : a.image.size ≤ offset + 1 + count := by omega
    cases hfree : a.isFree offset with
    | true =>
      rw [runs_of_free ha hahead hfree]
      exact ih hnext hend' (hwalk.of_free hfree)
    | false =>
      have hmore := ih hnext hend' (hwalk.of_not_free hfree)
      rw [runs_of_not_free ha hahead hfree]
      cases opened with
      | none => exact hmore
      | some first =>
        -- Whatever is found after the byte starts after it.
        refine List.pairwise_cons.2 ⟨fun run hrun => ?_, hmore⟩
        exact ((mem_runs_iff ha hnext hend' (hwalk.of_not_free hfree)).1 hrun).2

theorem pairwise_freeRuns (ha : a.Sorted) (start : Nat) :
    (a.freeRuns start).Pairwise fun i j => i.stop < j.start :=
  pairwise_runs ha ⟨[], rfl, by simp⟩ (by omega) (Walked.begin a start)

end

/-! ## Places -/

theorem mem_of_best? {found : List (Nat × Nat)} {best : Nat × Nat} (h : best? found = some best) :
    best ∈ found := by
  induction found with
  | nil => simp [best?] at h
  | cons first rest ih =>
    rw [best?] at h
    split at h
    · exact Option.some.inj h ▸ .head _
    · rename_i other hother
      split at h
      · exact Option.some.inj h ▸ .head _
      · exact .tail _ (ih (hother.trans h))

/-- A place is found in a free run that seems to have room. -/
theorem exists_run_of_search? (h : a.search? start size = some offset) :
    ∃ run ∈ a.freeRuns start, fit? a.policy size run = some offset := by
  cases hstrategy : a.policy.strategy with
  | firstFit =>
    simp only [search?, hstrategy] at h
    exact List.exists_of_findSome?_eq_some h
  | bestFit =>
    simp only [search?, hstrategy, Option.map_eq_some_iff] at h
    obtain ⟨best, hbest, rfl⟩ := h
    obtain ⟨run, hrun, hfit⟩ := List.mem_filterMap.1 (mem_of_best? hbest)
    obtain ⟨place, hplace, rfl⟩ := Option.map_eq_some_iff.1 hfit
    exact ⟨run, hrun, hplace⟩

theorem exists_run_of_place? (h : a.place? size = some offset) :
    ∃ start, ∃ run ∈ a.freeRuns start, fit? a.policy size run = some offset := by
  rw [place?, Option.or_eq_some_iff] at h
  rcases h with h | ⟨_, h⟩
  · exact ⟨_, exists_run_of_search? h⟩
  · split at h
    · exact ⟨_, exists_run_of_search? h⟩
    · simp at h

theorem le_roundUp (n : Nat) {align : Nat} (h : 1 ≤ align) : n ≤ roundUp n align := by
  have hmod := Nat.mod_add_div (n + (align - 1)) align
  have hlt := Nat.mod_lt (n + (align - 1)) h
  rw [roundUp, Nat.mul_comm]
  omega

/-- Rounding up gives the least multiple. -/
theorem roundUp_le {n m align : Nat} (halign : 1 ≤ align) (hle : n ≤ m) (hdvd : align ∣ m) :
    roundUp n align ≤ m := by
  obtain ⟨k, rfl⟩ := hdvd
  rw [roundUp, Nat.mul_comm align]
  refine Nat.mul_le_mul_right align (Nat.le_of_lt_succ ?_)
  rw [Nat.div_lt_iff_lt_mul halign, Nat.succ_mul, Nat.mul_comm k]
  omega

theorem fit?_eq_some_iff {policy : FreeSpacePolicy} {run : Interval} :
    fit? policy size run = some offset ↔ firstPlace policy run = offset ∧
      policy.minRun ≤ run.size ∧ wordAdd offset size ≤ run.stop := by
  simp only [fit?]
  split
  · rename_i hfit
    rw [Option.some.injEq]
    exact ⟨fun h => ⟨h, h ▸ hfit⟩, And.left⟩
  · rename_i hfit
    refine iff_of_false (by simp) ?_
    rintro ⟨rfl, h⟩
    exact hfit h

/-- A run lies in the image. -/
theorem stop_le_size_of_mem_freeRuns (ha : a.Sorted) {run : Interval} (h : run ∈ a.freeRuns start) :
    run.start < run.stop ∧ run.stop ≤ a.image.size := by
  have hrun := (mem_freeRuns_iff ha).1 h
  have hne := hrun.nonempty
  have hlast := lt_size_of_isFree (hrun.free (run.stop - 1) (by omega) (by omega))
  exact ⟨hne, by omega⟩

/-- A place is at its run's start or behind it, and not at offset 0. -/
theorem le_firstPlace (policy : FreeSpacePolicy) (run : Interval) :
    max run.start 1 ≤ firstPlace policy run :=
  le_roundUp _ (Nat.le_max_right _ 1)

/-- The place looked at in a run lies below 2^63: it is the alignment itself, or less than twice the
    start of the run. -/
theorem firstPlace_lt {policy : FreeSpacePolicy} {run : Interval} (hstart : run.start < 2 ^ 32) :
    firstPlace policy run < 2 ^ 63 := by
  have halign : (policy.align : Nat) < 2 ^ 63 := policy.align.isLt
  rw [firstPlace]
  generalize hn : max run.start 1 = n
  generalize hm : max (policy.align : Nat) 1 = m
  by_cases hle : n ≤ m
  · have := roundUp_le (show 1 ≤ m by omega) hle (Nat.dvd_refl m)
    omega
  · have := Nat.div_mul_le_self (n + (m - 1)) m
    rw [roundUp]
    omega

/-- Sums with sizes below 2^63 are exact. -/
theorem wordAdd_eq (hoffset : offset < 2 ^ 63) (hsize : size < 2 ^ 63) :
    wordAdd offset size = offset + size :=
  Nat.mod_eq_of_lt (show offset + size < UInt64.size by simp only [UInt64.size]; omega)

/-- With a larger size, a sum that is not past a run has left the word, and comes before its offset. -/
theorem wordAdd_lt (hoffset : offset < 2 ^ 63) (hlarge : 2 ^ 63 ≤ size) (hword : size < 2 ^ 64)
    (hle : wordAdd offset size ≤ 2 ^ 32) : wordAdd offset size < offset := by
  have hsum := Nat.mod_add_div (offset + size) UInt64.size
  simp only [wordAdd, UInt64.size] at hle hsum ⊢
  omega

/-- What is promised about bytes that are handed out. -/
structure Granted (a : Allocator) (offset size : Nat) : Prop where
  pos : 1 ≤ offset
  within : offset + size ≤ a.image.size
  free : ∀ i, offset ≤ i → i < offset + size → a.isFree i = true

/-- Wherever bytes are said to go, their offset is below 2^63 and the end that is compared lies in the
    image. -/
theorem place?_lt (ha : a.Sorted) (hlimit : a.image.size ≤ 2 ^ 32) (h : a.place? size = some place) :
    place < 2 ^ 63 ∧ wordAdd place size ≤ 2 ^ 32 := by
  obtain ⟨start, run, hrun, hfit⟩ := exists_run_of_place? h
  obtain ⟨rfl, _, hstop⟩ := fit?_eq_some_iff.1 hfit
  obtain ⟨hne, hsize⟩ := stop_le_size_of_mem_freeRuns ha hrun
  exact ⟨firstPlace_lt (by omega), by omega⟩

/-- A place is free, and lies in the image. -/
theorem granted_of_place? (ha : a.Sorted) (hlimit : a.image.size ≤ 2 ^ 32) (hsize : size < 2 ^ 63)
    (h : a.place? size = some place) : a.Granted place size := by
  obtain ⟨start, run, hrun, hfit⟩ := exists_run_of_place? h
  obtain ⟨hplace, _, hstop⟩ := fit?_eq_some_iff.1 hfit
  rw [wordAdd_eq (place?_lt ha hlimit h).1 hsize] at hstop
  have hfirst := le_firstPlace a.policy run
  have hwithin := (stop_le_size_of_mem_freeRuns ha hrun).2
  exact ⟨by omega, by omega,
    fun i hi hlt => ((mem_freeRuns_iff ha).1 hrun).free i (by omega) (by omega)⟩

/-- Places are multiples of the alignment. -/
theorem dvd_of_place? (h : a.place? size = some place) : max (a.policy.align : Nat) 1 ∣ place := by
  obtain ⟨start, run, _, hfit⟩ := exists_run_of_place? h
  rw [← (fit?_eq_some_iff.1 hfit).1]
  exact Nat.dvd_mul_left _ _

/-- `allocate` takes the place that `place?` finds. -/
theorem allocate_eq_ok_iff {offset : UInt32} :
    a.allocate size = .ok (offset, b) ↔ ∃ place, a.place? size = some place ∧
      UInt32.ofNat place = offset ∧ a.reserve ⟨place, wordAdd place size⟩ = b := by
  unfold allocate
  cases a.place? size with
  | none | some place => simp

/-- Bytes are handed out at their place, since the offset fits a word. -/
theorem place?_of_allocate {offset : UInt32} (ha : a.Sorted) (hpos : 1 ≤ size)
    (hsize : size < 2 ^ 63) (hlimit : a.image.size ≤ 2 ^ 32) (h : a.allocate size = .ok (offset, b)) :
    a.place? size = some offset.toNat ∧ b = a.reserve ⟨offset.toNat, offset.toNat + size⟩ := by
  obtain ⟨place, hplace, rfl, rfl⟩ := allocate_eq_ok_iff.1 h
  have hwithin := (granted_of_place? ha hlimit hsize hplace).within
  have hword : (UInt32.ofNat place).toNat = place :=
    UInt32.toNat_ofNat_of_lt' (Nat.lt_of_lt_of_le (by omega) hlimit)
  rw [hword, wordAdd_eq (place?_lt ha hlimit hplace).1 hsize]
  exact ⟨hplace, rfl⟩

/-- A request for 2^63 bytes or more takes nothing, whatever the answer is: the end that is reserved up
    to comes before the place. -/
theorem eq_of_allocate_large {offset : UInt32} (ha : a.Sorted) (hlimit : a.image.size ≤ 2 ^ 32)
    (hlarge : 2 ^ 63 ≤ size) (hword : size < 2 ^ 64) (h : a.allocate size = .ok (offset, b)) :
    b = a := by
  obtain ⟨place, hplace, _, rfl⟩ := allocate_eq_ok_iff.1 h
  obtain ⟨hlt, hend⟩ := place?_lt ha hlimit hplace
  have hback := wordAdd_lt hlt hlarge hword hend
  exact if_pos (decide_eq_true (Nat.le_of_lt hback))

/-- Bytes that data gets are free, and are taken from then on. -/
theorem granted_of_allocateData {offset : UInt32} (ha : a.Sorted) (hpos : 1 ≤ size)
    (hlimit : a.image.size ≤ 2 ^ 32) (h : a.allocateData size = .ok (offset, b)) :
    a.Granted offset.toNat size ∧ b = a.reserve ⟨offset.toNat, offset.toNat + size⟩ := by
  unfold allocateData at h
  split at h
  · rename_i hsize
    obtain ⟨hplace, hb⟩ := place?_of_allocate ha hpos hsize hlimit h
    exact ⟨granted_of_place? ha hlimit hsize hplace, hb⟩
  · simp at h

/-! ## Calls one after the other -/

/-- What an allocator is asked for. -/
inductive Call where
  | reserve (i : Interval)
  | allocate (size : Nat)
  deriving Repr, DecidableEq

/-- The allocator after a call. -/
def after (a : Allocator) : Call → Allocator
  | .reserve i => a.reserve i
  | .allocate size =>
    match a.allocate size with
    | .ok (_, next) => next
    | .error _ => a

/-- The bytes that a call takes: the ones it names, or those from the place found up to the end that its
    size comes to. -/
def range? (a : Allocator) : Call → Option Interval
  | .reserve i => some i
  | .allocate size => (a.place? size).map fun place => ⟨place, wordAdd place size⟩

/-- The allocator after calls. -/
def run (a : Allocator) (calls : List Call) : Allocator := calls.foldl after a

/-- The bytes that calls take, call by call. -/
def ranges : Allocator → List Call → List Interval
  | _, [] => []
  | a, call :: calls => (a.range? call).toList ++ (a.after call).ranges calls

theorem run_concat (a : Allocator) (calls : List Call) (call : Call) :
    a.run (calls ++ [call]) = (a.run calls).after call := by
  simp [run]

/-- An allocator that has taken exactly the bytes of some intervals. -/
structure Tracks (a : Allocator) (taken : List Interval) : Prop where
  sorted : a.Sorted
  isTaken : ∀ offset, a.isTaken offset = taken.any (·.contains offset)

theorem Tracks.reserve (h : a.Tracks taken) (i : Interval) :
    (a.reserve i).Tracks (taken ++ [i]) := by
  refine ⟨h.sorted.reserve i, ?_⟩
  intro offset
  rw [isTaken_reserve h.sorted, h.isTaken, List.any_append, List.any_cons, List.any_nil, Bool.or_false,
    Bool.or_comm]

/-- One call: the allocator goes on to know what was taken. -/
theorem Tracks.after (h : a.Tracks taken) (call : Call) :
    (a.after call).Tracks (taken ++ (a.range? call).toList) := by
  cases call with
  | reserve i => exact h.reserve i
  | allocate size =>
    cases hplace : a.place? size with
    | none => simpa [Allocator.after, allocate, range?, hplace] using h
    | some place => simpa [Allocator.after, allocate, range?, hplace] using h.reserve _

@[simp]
theorem image_after (a : Allocator) (call : Call) : (a.after call).image = a.image := by
  cases call with
  | reserve i => exact image_reserve a i
  | allocate size =>
    simp only [after, allocate]
    cases a.place? size with
    | none => rfl
    | some place => exact image_reserve a _

@[simp]
theorem policy_after (a : Allocator) (call : Call) : (a.after call).policy = a.policy := by
  cases call with
  | reserve i => exact policy_reserve a i
  | allocate size =>
    simp only [after, allocate]
    cases a.place? size with
    | none => rfl
    | some place => exact policy_reserve a _

/-- Any number of calls. -/
theorem Tracks.run (h : a.Tracks taken) (calls : List Call) :
    (a.run calls).Tracks (taken ++ a.ranges calls) ∧ (a.run calls).image = a.image ∧
      (a.run calls).policy = a.policy := by
  induction calls generalizing a taken with
  | nil => exact ⟨by simpa [ranges, Allocator.run] using h, rfl, rfl⟩
  | cons call calls ih =>
    obtain ⟨htracks, himage, hpolicy⟩ := ih (h.after call)
    rw [List.append_assoc] at htracks
    exact ⟨htracks, himage.trans (image_after a call), hpolicy.trans (policy_after a call)⟩

namespace Sample

/-- Free bytes on both sides of one that is in use. -/
def glade : Array UInt8 := Array.replicate 4 0xFF ++ #[0] ++ Array.replicate 11 0xFF

/-- Intervals that touch, one that lies outside, one that is empty, and a request for too much. -/
def visits : List Call :=
  [.reserve ⟨6, 8⟩, .allocate 3, .reserve ⟨20, 25⟩, .reserve ⟨4, 6⟩, .reserve ⟨9, 9⟩, .allocate 100]

end Sample

end Allocator

end CartScript
