import CartScript.Registry
import Mathlib.Data.List.Basic
import Mathlib.Data.List.Induction

/-!
# A name and a game determine a code

A code is refused if some game has both it and a code of the same name that is there already, and then
it changes nothing.  A look-up sees only the codes whose places the table of names lists; these are all
codes of the name.  So whatever was inserted, a game has at most one code of each name, and that code is
the one a look-up finds.
-/

namespace CartScript

/-! ## The games of a code -/

/-- A game has the code: it is named among the code's games, in any letter case, or none is named. -/
def Code.Available (c : Code) (game : String) : Prop :=
  c.games = [] ∨ ∃ g ∈ c.games, Text.lowerAscii g = Text.lowerAscii game

theorem Code.forGame_iff {c : Code} {game : String} : c.forGame game = true ↔ c.Available game := by
  simp [Code.forGame, Code.Available]

theorem Code.Available.congr {c : Code} {g game : String} (h : c.Available game)
    (hg : Text.lowerAscii g = Text.lowerAscii game) : c.Available g := by
  rcases h with hall | ⟨g', hg', hsame⟩
  · exact .inl hall
  · exact .inr ⟨g', hg', hsame.trans hg.symm⟩

/-- Every code is there in some game. -/
theorem Code.exists_available (c : Code) : ∃ game, c.Available game := by
  cases hgames : c.games with
  | nil => exact ⟨"", .inl hgames⟩
  | cons g rest => exact ⟨g, .inr ⟨g, by simp [hgames], rfl⟩⟩

/-- Only the games of one code are looked through, and that is enough: where one of the codes names no
    game, all games of the other have both. -/
theorem Code.sharesGame_iff {c d : Code} :
    c.sharesGame d = true ↔ ∃ game, c.Available game ∧ d.Available game := by
  simp only [Code.sharesGame, Bool.or_eq_true, List.isEmpty_iff, List.any_eq_true, Code.forGame_iff]
  constructor
  · rintro ((hc | hd) | ⟨g, hg, hd⟩)
    · obtain ⟨game, hgame⟩ := d.exists_available
      exact ⟨game, .inl hc, hgame⟩
    · obtain ⟨game, hgame⟩ := c.exists_available
      exact ⟨game, hgame, .inl hd⟩
    · exact ⟨g, .inr ⟨g, hg, rfl⟩, hd⟩
  · rintro ⟨game, hc, hd⟩
    rcases hc with hc | ⟨g, hg, hsame⟩
    · exact .inl (.inl hc)
    · exact .inr ⟨g, hg, hd.congr hsame⟩

namespace Registry

variable {r r' : Registry} {c d : Code} {game name : String} {i : Nat}

/-! ## The table of names -/

/-- The table of names lists the codes of each name, in their order. -/
structure Tabled (r : Registry) : Prop where
  lt_size : ∀ name, ∀ i ∈ r.places name, i < r.codes.size
  named : ∀ name, r.named name = r.codes.toList.filter (·.name == name)

theorem Tabled.empty : Tabled {} := ⟨by simp [places, Dictionary.find?], fun _ => rfl⟩

/-- `push` adds the place of the new code to those of its name, and to no others. -/
theorem places_push (r : Registry) (c : Code) (name : String) :
    (r.push c).places name =
      r.places name ++ if name = c.name then [r.codes.size] else [] := by
  simp only [places, push, Dictionary.find?_put]
  split
  · rename_i hname
    rw [hname, Option.getD_some]
  · rw [List.append_nil]

theorem at?_push (r : Registry) (c : Code) (i : Nat) :
    (r.push c).at? i = if i = r.codes.size then some { c with index := r.codes.size } else r.at? i := by
  simp only [at?, push, Array.getElem?_push]

/-- `push` keeps the table of names. -/
theorem Tabled.push (h : r.Tabled) (c : Code) : (r.push c).Tabled := by
  constructor
  · intro name i hi
    rw [places_push, List.mem_append] at hi
    show i < (r.codes.push _).size
    rw [Array.size_push]
    rcases hi with hi | hi
    · exact Nat.lt_succ_of_lt (h.lt_size name i hi)
    · split at hi
      · rw [List.mem_singleton.1 hi]
        exact Nat.lt_succ_self _
      · simp at hi
  · intro name
    -- the old places lie below the new one, so they hold what they held
    have hold : (r.places name).filterMap (r.push c).at? = r.named name := by
      refine List.filterMap_congr fun i hi => ?_
      rw [at?_push, if_neg (Nat.ne_of_lt (h.lt_size name i hi))]
    rw [Registry.named, places_push, List.filterMap_append, hold, h.named]
    show _ = (r.codes.push { c with index := r.codes.size }).toList.filter _
    rw [Array.toList_push, List.filter_append]
    by_cases hname : name = c.name
    · simp [hname, at?_push]
    · simp [hname, Ne.symm hname]

/-- `named` gives the codes of a name. -/
theorem Tabled.mem_named (h : r.Tabled) : c ∈ r.named name ↔ c ∈ r.codes ∧ c.name = name := by
  rw [h.named, List.mem_filter, Array.mem_toList_iff, beq_iff_eq]

/-! ## Insertion -/

theorem Tabled.clash?_eq_none_iff (h : r.Tabled) :
    r.clash? c = none ↔ ∀ d ∈ r.codes, d.name = c.name → d.sharesGame c = false := by
  simp [clash?, List.find?_eq_none, h.mem_named]

/-- `insert` succeeds if and only if no code clashes. -/
theorem insert_eq_ok_iff : r.insert c = (.ok (), r') ↔ r.clash? c = none ∧ r' = r.push c := by
  unfold insert
  cases r.clash? c with
  | none => simp [eq_comm]
  | some d => simp

/-- A code that is refused leaves the registry as it was.  It clashes with a code that is there, whose
    origin is the answer. -/
theorem clash_of_insert_error {origin : String} (h : (r.insert c).1 = .error origin) :
    (r.insert c).2 = r ∧ ∃ d, r.clash? c = some d ∧ d.origin = origin := by
  unfold insert at h ⊢
  cases hclash : r.clash? c with
  | none => simp [hclash] at h
  | some d => exact ⟨rfl, d, rfl, by simpa [hclash] using h⟩

/-- A code is refused because of a code of its name that some game has as well. -/
theorem Tabled.insert_error_iff (h : r.Tabled) :
    (∃ origin, (r.insert c).1 = .error origin) ↔
      ∃ d ∈ r.codes, d.name = c.name ∧ ∃ game, d.Available game ∧ c.Available game := by
  have hclash : (∃ origin, (r.insert c).1 = .error origin) ↔ r.clash? c ≠ none := by
    unfold insert
    cases r.clash? c with
    | none | some d => simp
  rw [hclash, Ne, h.clash?_eq_none_iff]
  simp only [← Code.sharesGame_iff]
  grind

/-- The codes after an insertion are the old ones and, behind them, the new one. -/
theorem at?_of_insert (h : r.insert c = (.ok (), r')) (hd : r'.at? i = some d) :
    r.at? i = some d ∨ i = r.codes.size ∧ d = { c with index := r.codes.size } := by
  obtain ⟨_, rfl⟩ := insert_eq_ok_iff.1 h
  rw [at?_push] at hd
  split at hd
  · rename_i hi
    exact .inr ⟨hi, (Option.some.inj hd).symm⟩
  · exact .inl hd

theorem lt_size_of_at? (h : r.at? i = some c) : i < r.codes.size :=
  (Array.getElem?_eq_some_iff.1 h).1

theorem exists_at?_of_mem (h : c ∈ r.codes) : ∃ i, r.at? i = some c :=
  Array.mem_iff_getElem?.1 h

/-! ## Consistent registries -/

/-- Codes in their places, no two of which have a name and a game in common. -/
structure Consistent (r : Registry) : Prop where
  index : ∀ i c, r.at? i = some c → c.index = i
  distinct : ∀ i j c d, i < j → r.at? i = some c → r.at? j = some d → c.name = d.name →
    c.sharesGame d = false
  tabled : r.Tabled

theorem Consistent.empty : Consistent {} := ⟨by simp [at?], by simp [at?], .empty⟩

/-- `insert` lets in no code that has a name and a game in common with another. -/
theorem Consistent.insert (hr : r.Consistent) (h : r.insert c = (.ok (), r')) : r'.Consistent := by
  refine ⟨?_, ?_, (insert_eq_ok_iff.1 h).2 ▸ hr.tabled.push c⟩
  · intro i d hd
    rcases at?_of_insert h hd with hd | ⟨rfl, rfl⟩
    · exact hr.index i d hd
    · rfl
  · intro i j d e hij hd he hname
    rcases at?_of_insert h he with he | ⟨rfl, rfl⟩
    · -- both codes are old ones, since the new one comes last
      rcases at?_of_insert h hd with hd | ⟨rfl, rfl⟩
      · exact hr.distinct i j d e hij hd he hname
      · have hj := lt_size_of_at? he
        omega
    · rcases at?_of_insert h hd with hd | ⟨rfl, rfl⟩
      · -- the new code met no code of its name that shares a game
        have hnone := hr.tabled.clash?_eq_none_iff.1 (insert_eq_ok_iff.1 h).1
        exact hnone d (Array.mem_of_getElem? hd) hname
      · omega

/-- A game has at most one code of a name. -/
theorem Consistent.eq_of_available (hr : r.Consistent) {j : Nat} (hc : r.at? i = some c)
    (hd : r.at? j = some d) (hname : c.name = d.name) (hcg : c.Available game)
    (hdg : d.Available game) : i = j := by
  have hshares : c.sharesGame d = true := Code.sharesGame_iff.2 ⟨game, hcg, hdg⟩
  have hshares' : d.sharesGame c = true := Code.sharesGame_iff.2 ⟨game, hdg, hcg⟩
  by_contra hne
  rcases Nat.lt_or_gt_of_ne hne with hij | hij
  · have hapart := hr.distinct i j c d hij hc hd hname
    simp [hshares] at hapart
  · have hapart := hr.distinct j i d c hij hd hc hname.symm
    simp [hshares'] at hapart

theorem Tabled.get?_eq_none_iff (h : r.Tabled) :
    r.get? name game = none ↔ ∀ c ∈ r.codes, c.name = name → ¬ c.Available game := by
  simp [get?, List.find?_eq_none, h.mem_named, ← Code.forGame_iff]

theorem Tabled.mem_of_get? (h : r.Tabled) (hget : r.get? name game = some c) :
    c ∈ r.codes ∧ c.name = name ∧ c.Available game := by
  obtain ⟨hmem, hname⟩ := h.mem_named.1 (List.mem_of_find?_eq_some hget)
  have hgame : c.forGame game = true := List.find?_some (p := (Code.forGame · game)) hget
  exact ⟨hmem, hname, Code.forGame_iff.1 hgame⟩

/-- A look-up finds the code of a name that a game has, wherever it is. -/
theorem Consistent.get?_eq_some_iff (hr : r.Consistent) :
    r.get? name game = some c ↔ c ∈ r.codes ∧ c.name = name ∧ c.Available game := by
  refine ⟨hr.tabled.mem_of_get?, ?_⟩
  rintro ⟨hmem, hname, hgame⟩
  cases hget : r.get? name game with
  | none => exact absurd hgame (hr.tabled.get?_eq_none_iff.1 hget c hmem hname)
  | some d =>
    -- The code that is found is not a second one.
    obtain ⟨hd, hdname, hdgame⟩ := hr.tabled.mem_of_get? hget
    obtain ⟨i, hi⟩ := exists_at?_of_mem hmem
    obtain ⟨j, hj⟩ := exists_at?_of_mem hd
    obtain rfl := hr.eq_of_available hi hj (hname.trans hdname.symm) hgame hdgame
    exact hj.symm.trans hi

/-! ## Insertions one after the other -/

/-- The registry after codes were inserted into an empty one, in order. -/
def insertAll (inserted : List Code) : Registry := inserted.foldl (fun r c => (r.insert c).2) empty

theorem insertAll_concat (inserted : List Code) (c : Code) :
    insertAll (inserted ++ [c]) = ((insertAll inserted).insert c).2 := by
  simp [insertAll]

/-- An insertion either takes the code or changes nothing. -/
theorem insert_cases (r : Registry) (c : Code) :
    r.insert c = (.ok (), r.push c) ∨ ∃ origin, r.insert c = (.error origin, r) := by
  unfold insert
  cases r.clash? c with
  | none => exact .inl rfl
  | some d => exact .inr ⟨d.origin, rfl⟩

theorem consistent_insertAll (inserted : List Code) : (insertAll inserted).Consistent := by
  induction inserted using List.reverseRecOn with
  | nil => exact Consistent.empty
  | append_singleton inserted c ih =>
    rw [insertAll_concat]
    rcases insert_cases (insertAll inserted) c with h | ⟨origin, h⟩
    · rw [h]
      exact ih.insert h
    · rw [h]
      exact ih

/-- The codes that are there are those that were taken, in the order in which they were inserted. -/
theorem exists_kept_insertAll (inserted : List Code) :
    ∃ kept : List Code, kept.Sublist inserted ∧
      (insertAll inserted).codes.toList = kept.mapIdx fun i c => { c with index := i } := by
  induction inserted using List.reverseRecOn with
  | nil => exact ⟨[], List.Sublist.refl _, rfl⟩
  | append_singleton inserted c ih =>
    obtain ⟨kept, hkept, hcodes⟩ := ih
    rw [insertAll_concat]
    rcases insert_cases (insertAll inserted) c with h | ⟨origin, h⟩
    · have hsize : (insertAll inserted).codes.size = kept.length := by
        rw [← Array.length_toList, hcodes, List.length_mapIdx]
      refine ⟨kept ++ [c], hkept.append_right [c], ?_⟩
      rw [h, push, Array.toList_push, hcodes, hsize, List.mapIdx_concat]
    · rw [h]
      exact ⟨kept, hkept.trans (List.sublist_append_left _ _), hcodes⟩

/-- Whatever codes were inserted into a registry, in whatever order: a game has at most one code of each
    name.  A look-up through the table of names finds that code, and nothing where there is none.  Codes
    stand in the order in which they were taken, each at its index.  A further code is refused exactly if
    some game has it together with a code of its name; the answer is then the origin of such a code, and
    codes and table stay as they were. -/
theorem insertAll_determines (inserted : List Code) :
    let r := insertAll inserted
    (∀ name game i j c d, r.at? i = some c → r.at? j = some d → c.name = name → d.name = name →
      c.Available game → d.Available game → i = j) ∧
    (∀ name game c, r.get? name game = some c ↔ c ∈ r.codes ∧ c.name = name ∧ c.Available game) ∧
    (∀ name game, r.get? name game = none ↔ ∀ c ∈ r.codes, c.name = name → ¬ c.Available game) ∧
    (∃ kept : List Code, kept.Sublist inserted ∧
      r.codes.toList = kept.mapIdx fun i c => { c with index := i }) ∧
    (∀ i c, r.at? i = some c → c.index = i) ∧
    (∀ c, (∃ origin, (r.insert c).1 = .error origin) ↔
      ∃ d ∈ r.codes, d.name = c.name ∧ ∃ game, d.Available game ∧ c.Available game) ∧
    (∀ c origin, (r.insert c).1 = .error origin → (r.insert c).2 = r ∧
      ∃ d ∈ r.codes, d.name = c.name ∧ d.origin = origin) ∧
    (∀ c, (r.insert c).1 = .ok () →
      (r.insert c).2.codes = r.codes.push { c with index := r.codes.size }) := by
  intro r
  have hr : r.Consistent := consistent_insertAll inserted
  refine ⟨?_, ?_, ?_, exists_kept_insertAll inserted, hr.index, ?_, ?_, ?_⟩
  · intro name game i j c d hc hd hcn hdn hcg hdg
    exact hr.eq_of_available hc hd (hcn.trans hdn.symm) hcg hdg
  · intro name game c
    exact hr.get?_eq_some_iff
  · intro name game
    exact hr.tabled.get?_eq_none_iff
  · intro c
    exact hr.tabled.insert_error_iff
  · intro c origin h
    obtain ⟨hsame, d, hclash, horigin⟩ := clash_of_insert_error h
    obtain ⟨hd, hname⟩ := hr.tabled.mem_named.1 (List.mem_of_find?_eq_some hclash)
    exact ⟨hsame, d, hd, hname, horigin⟩
  · intro c h
    rcases insert_cases r c with htaken | ⟨origin, hrefused⟩
    · rw [htaken]
      rfl
    · rw [hrefused] at h
      simp at h

end Registry

end CartScript
