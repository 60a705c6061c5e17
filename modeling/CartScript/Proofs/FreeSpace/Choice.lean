import CartScript.Proofs.FreeSpace

/-!
# Which place an allocator picks

An allocator looks at one place in each run of free bytes: the first multiple of the alignment that is
not 0.  If bytes have room anywhere in a run, they have room there, so the search misses no placement,
and the place that it picks is the best one by the strategy.  All this holds for sizes below 2^63.
Larger requests have no placement, but are told of a place where a sum leaves 64 bits.
-/

namespace CartScript.Allocator

/-! ## Placements -/

/-- A place for bytes in a run that is long enough to be used. -/
structure Room (a : Allocator) (size : Nat) (run : Interval) (offset : Nat) : Prop where
  pos : 1 ≤ offset
  aligned : max (a.policy.align : Nat) 1 ∣ offset
  lower : run.start ≤ offset
  upper : offset + size ≤ run.stop
  long : a.policy.minRun ≤ run.size

/-- A place for bytes from `start` on. -/
def Placement (a : Allocator) (start size offset : Nat) : Prop :=
  ∃ run, a.IsRun start run ∧ a.Room size run offset

/-- The placement that the strategy prefers to all others from `start` on. -/
def Picks (a : Allocator) (start size offset : Nat) : Prop :=
  match a.policy.strategy with
  | .firstFit => a.Placement start size offset ∧ ∀ o, a.Placement start size o → offset ≤ o
  | .bestFit => ∃ run, a.IsRun start run ∧ a.Room size run offset ∧
      ∀ other o, a.IsRun start other → a.Room size other o →
        run.size < other.size ∨ run.size = other.size ∧ offset ≤ o

/-- In some run the sum of the place looked at and the size leaves 64 bits, and what is left of it is not
    past the run. -/
def Overruns (a : Allocator) (start size : Nat) : Prop :=
  ∃ run, a.IsRun start run ∧ a.policy.minRun ≤ run.size ∧
    2 ^ 64 ≤ firstPlace a.policy run + size ∧ firstPlace a.policy run + size ≤ 2 ^ 64 + run.stop

variable {a : Allocator} {start size offset : Nat} {run : Interval}

/-! ## The place in a run -/

/-- A run lies in the image, so the place looked at in it is below 2^63. -/
theorem IsRun.firstPlace_lt (hlimit : a.image.size ≤ 2 ^ 32) (h : a.IsRun start run) :
    firstPlace a.policy run < 2 ^ 63 := by
  have hfirst := lt_size_of_isFree (h.free run.start (Nat.le_refl _) h.nonempty)
  exact Allocator.firstPlace_lt (by omega)

/-- `fit?` finds room. -/
theorem room_of_fit? (hplace : firstPlace a.policy run < 2 ^ 63) (hsize : size < 2 ^ 63)
    (h : fit? a.policy size run = some offset) : a.Room size run offset := by
  obtain ⟨rfl, hlong, hstop⟩ := fit?_eq_some_iff.1 h
  rw [wordAdd_eq hplace hsize] at hstop
  have hfirst := le_firstPlace a.policy run
  exact ⟨by omega, Nat.dvd_mul_left .., by omega, hstop, hlong⟩

/-- If bytes have room in a run, they have room at the place looked at, which is the lowest one. -/
theorem fit?_of_room (hplace : firstPlace a.policy run < 2 ^ 63) (hsize : size < 2 ^ 63)
    (h : a.Room size run offset) : ∃ first ≤ offset, fit? a.policy size run = some first := by
  have hle : firstPlace a.policy run ≤ offset :=
    roundUp_le (Nat.le_max_right ..) (Nat.max_le.2 ⟨h.lower, h.pos⟩) h.aligned
  refine ⟨_, hle, fit?_eq_some_iff.2 ⟨rfl, h.long, ?_⟩⟩
  have hupper := h.upper
  rw [wordAdd_eq hplace hsize]
  omega

/-! ## The search -/

/-- The best place is in a run that is not longer than the others, and lowest among equal ones. -/
theorem le_of_best? {found : List (Nat × Nat)} {best : Nat × Nat} (h : best? found = some best) :
    ∀ other ∈ found, best.1 < other.1 ∨ best.1 = other.1 ∧ best.2 ≤ other.2 := by
  induction found generalizing best with
  | nil => simp [best?] at h
  | cons first rest ih =>
    rw [best?] at h
    split at h
    · -- Nothing is found behind the first place.
      rename_i hnone
      have hrest : rest = [] := by
        cases rest with
        | nil => rfl
        | cons second rest =>
          rw [best?] at hnone
          split at hnone
          · simp at hnone
          · split at hnone <;> simp at hnone
      rw [← Option.some.inj h, hrest]
      simp
    · rename_i second hsecond
      have hbehind := ih hsecond
      split at h
      · obtain rfl := Option.some.inj h
        refine List.forall_mem_cons.2 ⟨.inr ⟨rfl, Nat.le_refl _⟩, fun other hother => ?_⟩
        have := hbehind other hother
        omega
      · obtain rfl := Option.some.inj h
        exact List.forall_mem_cons.2 ⟨by omega, hbehind⟩

/-- A search finds a place if and only if some run seems to have room. -/
theorem exists_search?_iff : (∃ place, a.search? start size = some place) ↔
    ∃ run ∈ a.freeRuns start, ∃ first, fit? a.policy size run = some first := by
  constructor
  · rintro ⟨place, h⟩
    obtain ⟨run, hrun, hfit⟩ := exists_run_of_search? h
    exact ⟨run, hrun, place, hfit⟩
  · rintro ⟨run, hmem, first, hfirst⟩
    cases hstrategy : a.policy.strategy with
    | firstFit =>
      simp only [search?, hstrategy]
      rw [← Option.isSome_iff_exists, List.findSome?_isSome_iff]
      exact ⟨run, hmem, by rw [hfirst]; rfl⟩
    | bestFit =>
      have hfound : (run.size, first) ∈ (a.freeRuns start).filterMap fun run =>
          (fit? a.policy size run).map (run.size, ·) :=
        List.mem_filterMap.2 ⟨run, hmem, by rw [hfirst]; rfl⟩
      simp only [search?, hstrategy]
      obtain ⟨other, rest, hlist⟩ := List.exists_cons_of_ne_nil (List.ne_nil_of_mem hfound)
      rw [hlist, best?]
      split
      · exact ⟨_, rfl⟩
      · split <;> exact ⟨_, rfl⟩

section

variable (ha : a.Sorted) (hlimit : a.image.size ≤ 2 ^ 32) (hsize : size < 2 ^ 63)

include ha hlimit hsize

theorem Placement.of_search? (h : a.search? start size = some offset) :
    a.Placement start size offset := by
  obtain ⟨run, hmem, hfit⟩ := exists_run_of_search? h
  have hrun := (mem_freeRuns_iff ha).1 hmem
  exact ⟨run, hrun, room_of_fit? (hrun.firstPlace_lt hlimit) hsize hfit⟩

/-- A search finds a place if there is one. -/
theorem exists_search?_of_placement (h : a.Placement start size offset) :
    ∃ place, a.search? start size = some place := by
  obtain ⟨run, hrun, hroom⟩ := h
  obtain ⟨first, _, hfirst⟩ := fit?_of_room (hrun.firstPlace_lt hlimit) hsize hroom
  exact exists_search?_iff.2 ⟨run, (mem_freeRuns_iff ha).2 hrun, first, hfirst⟩

/-- A search finds no place if and only if there is none. -/
theorem search?_eq_none_iff :
    a.search? start size = none ↔ ∀ offset, ¬ a.Placement start size offset := by
  constructor
  · intro hnone offset hplacement
    obtain ⟨place, hplace⟩ := exists_search?_of_placement ha hlimit hsize hplacement
    rw [hnone] at hplace
    simp at hplace
  · intro hnone
    cases hplace : a.search? start size with
    | none => rfl
    | some place => exact absurd (Placement.of_search? ha hlimit hsize hplace) (hnone place)

/-- The place that is found is the one that the strategy prefers. -/
theorem picks_of_search? (h : a.search? start size = some offset) :
    a.Picks start size offset := by
  have hplacement := Placement.of_search? ha hlimit hsize h
  unfold Picks
  cases hstrategy : a.policy.strategy with
  | firstFit =>
    refine ⟨hplacement, ?_⟩
    rintro o ⟨other, hother, hroom⟩
    simp only [search?, hstrategy] at h
    obtain ⟨before, run, behind, hruns, hfit, hnone⟩ := List.findSome?_eq_some_iff.1 h
    have hsorted := pairwise_freeRuns ha start
    rw [hruns] at hsorted
    have hmem := (mem_freeRuns_iff ha).2 hother
    have hrun := (mem_freeRuns_iff ha).1 (show run ∈ a.freeRuns start by simp [hruns])
    rw [hruns] at hmem
    obtain ⟨first, hle, hfirst⟩ := fit?_of_room (hother.firstPlace_lt hlimit) hsize hroom
    rcases List.mem_append.1 hmem with hbefore | hmem
    · -- A run before the one that was taken has no room.
      rw [hnone other hbefore] at hfirst
      simp at hfirst
    · rcases List.mem_cons.1 hmem with rfl | hbehind
      · rw [hfit] at hfirst
        exact Option.some.inj hfirst ▸ hle
      · have hgap := (List.pairwise_cons.1 (List.pairwise_append.1 hsorted).2.1).1 other hbehind
        have hupper := (room_of_fit? (hrun.firstPlace_lt hlimit) hsize hfit).upper
        have hlower := hroom.lower
        omega
  | bestFit =>
    simp only [search?, hstrategy, Option.map_eq_some_iff] at h
    obtain ⟨best, hbest, rfl⟩ := h
    obtain ⟨run, hrun, hfit⟩ := List.mem_filterMap.1 (mem_of_best? hbest)
    obtain ⟨place, hplace, rfl⟩ := Option.map_eq_some_iff.1 hfit
    have hrun := (mem_freeRuns_iff ha).1 hrun
    refine ⟨run, hrun, room_of_fit? (hrun.firstPlace_lt hlimit) hsize hplace, ?_⟩
    intro other o hother hroom
    obtain ⟨first, hle, hfirst⟩ := fit?_of_room (hother.firstPlace_lt hlimit) hsize hroom
    have hfound := le_of_best? hbest (other.size, first)
      (List.mem_filterMap.2 ⟨other, (mem_freeRuns_iff ha).2 hother, by rw [hfirst]; rfl⟩)
    simp only at hfound
    omega

omit ha hlimit hsize in
theorem Picks.placement (h : a.Picks start size offset) : a.Placement start size offset := by
  unfold Picks at h
  split at h
  · exact h.1
  · obtain ⟨run, hrun, hroom, _⟩ := h
    exact ⟨run, hrun, hroom⟩

omit ha hlimit hsize in
/-- A strategy prefers one placement only. -/
theorem Picks.unique {other : Nat} (h : a.Picks start size offset)
    (hother : a.Picks start size other) : offset = other := by
  unfold Picks at h hother
  cases hstrategy : a.policy.strategy with
  | firstFit =>
    simp only [hstrategy] at h hother
    exact Nat.le_antisymm (h.2 other hother.1) (hother.2 offset h.1)
  | bestFit =>
    simp only [hstrategy] at h hother
    obtain ⟨run, hrun, hroom, hbest⟩ := h
    obtain ⟨run', hrun', hroom', hbest'⟩ := hother
    have hle := hbest run' other hrun' hroom'
    have hge := hbest' run offset hrun hroom
    omega

theorem search?_eq_some_iff :
    a.search? start size = some offset ↔ a.Picks start size offset := by
  refine ⟨picks_of_search? ha hlimit hsize, fun h => ?_⟩
  obtain ⟨place, hplace⟩ := exists_search?_of_placement ha hlimit hsize h.placement
  rw [hplace, (picks_of_search? ha hlimit hsize hplace).unique h]

/-! ## Allocation -/

omit ha hlimit hsize in
/-- `place?` searches twice if it may. -/
theorem place?_eq : a.place? size =
    (a.search? a.policy.start size).or (if a.policy.wrap then a.search? 0 size else none) := by
  rw [place?]
  by_cases hstart : 0 < a.policy.start
  · simp [hstart]
  · -- A search that starts at 0 has nothing to start over for.
    obtain hzero : a.policy.start = 0 := by omega
    cases a.policy.wrap <;> simp [hzero]

/-- No place is found if and only if there is none to pick. -/
theorem place?_eq_none_iff :
    a.place? size = none ↔ (∀ offset, ¬ a.Placement a.policy.start size offset) ∧
      (a.policy.wrap = false ∨ ∀ offset, ¬ a.Placement 0 size offset) := by
  have hagain : a.search? 0 size = none ↔ _ := search?_eq_none_iff ha hlimit hsize
  rw [place?_eq, Option.or_eq_none_iff, search?_eq_none_iff ha hlimit hsize, ← hagain]
  cases a.policy.wrap <;> simp

/-- The place that is found is the one to pick. -/
theorem place?_eq_some_iff :
    a.place? size = some offset ↔ a.Picks a.policy.start size offset ∨
      a.policy.wrap = true ∧ (∀ o, ¬ a.Placement a.policy.start size o) ∧
        a.Picks 0 size offset := by
  have hagain : a.search? 0 size = some offset ↔ _ := search?_eq_some_iff ha hlimit hsize
  rw [place?_eq, Option.or_eq_some_iff, search?_eq_some_iff ha hlimit hsize,
    search?_eq_none_iff ha hlimit hsize, ← hagain]
  cases a.policy.wrap <;> simp

end

/-! ## Requests for too much -/

/-- No run has room for 2^63 bytes. -/
theorem not_placement_of_large (hlimit : a.image.size ≤ 2 ^ 32) (hlarge : 2 ^ 63 ≤ size) :
    ¬ a.Placement start size offset := by
  rintro ⟨run, hrun, hroom⟩
  have hne := hrun.nonempty
  have hlast := lt_size_of_isFree (hrun.free (run.stop - 1) (by omega) (by omega))
  have hupper := hroom.upper
  omega

/-- A search for too much finds a place exactly where a sum overruns. -/
theorem exists_search?_iff_overruns (ha : a.Sorted) (hlimit : a.image.size ≤ 2 ^ 32)
    (hlarge : 2 ^ 63 ≤ size) (hword : size < 2 ^ 64) :
    (∃ place, a.search? start size = some place) ↔ a.Overruns start size := by
  rw [exists_search?_iff]
  refine exists_congr fun run => ?_
  rw [mem_freeRuns_iff ha]
  refine and_congr_right fun hrun => ?_
  have hplace := hrun.firstPlace_lt hlimit
  have hne := hrun.nonempty
  have hlast := lt_size_of_isFree (hrun.free (run.stop - 1) (by omega) (by omega))
  simp only [fit?_eq_some_iff, exists_eq_left', wordAdd, UInt64.size]
  refine and_congr_right fun _ => ?_
  omega

/-- So does an allocation. -/
theorem exists_place?_iff_overruns (ha : a.Sorted) (hlimit : a.image.size ≤ 2 ^ 32)
    (hlarge : 2 ^ 63 ≤ size) (hword : size < 2 ^ 64) :
    (∃ place, a.place? size = some place) ↔
      a.Overruns a.policy.start size ∨ a.policy.wrap = true ∧ a.Overruns 0 size := by
  simp only [← exists_search?_iff_overruns ha hlimit hlarge hword, ← Option.isSome_iff_exists,
    place?_eq, Option.isSome_or, Bool.or_eq_true]
  cases a.policy.wrap <;> simp

namespace Sample

/-- Runs of nine, four and three free bytes. -/
def hedge : Array UInt8 :=
  Array.replicate 9 0xFF ++ #[0, 0, 0] ++ Array.replicate 4 0xFF ++ #[0] ++ Array.replicate 3 0xFF

/-- The search starts inside the run of four bytes. -/
def tight : FreeSpacePolicy := { start := 13, strategy := .bestFit }

end Sample

end CartScript.Allocator
