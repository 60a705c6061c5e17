/-!
# Dictionaries that keep the order of insertion

A `Dictionary` holds pairs of a name and a value, each name at most once, in the order in which the
names were first put.  `find?` is its view: every operation is described by what it does to the
values found.
-/

namespace CartScript

/-- Pairs of a name and a value in the order of insertion. -/
structure Dictionary (α : Type) where
  entries : List (String × α) := []
  deriving Repr, DecidableEq, Inhabited

namespace Dictionary

variable {α : Type}

def empty : Dictionary α := {}

/-- The value of a name. -/
def find? (d : Dictionary α) (name : String) : Option α := d.entries.lookup name

def contains (d : Dictionary α) (name : String) : Bool := (d.find? name).isSome

def size (d : Dictionary α) : Nat := d.entries.length

/-- Replaces the value of the first pair with the given name. -/
def replace (name : String) (value : α) : List (String × α) → List (String × α)
  | [] => []
  | (key, old) :: rest =>
    if key = name then (key, value) :: rest else (key, old) :: replace name value rest

/-- Gives a name a value.  A name that is there already keeps its place. -/
def put (d : Dictionary α) (name : String) (value : α) : Dictionary α :=
  if d.contains name then ⟨replace name value d.entries⟩ else ⟨d.entries ++ [(name, value)]⟩

/-- Drops a name. -/
def erase (d : Dictionary α) (name : String) : Dictionary α :=
  ⟨d.entries.filter fun entry => entry.1 != name⟩

/-- Puts pairs one after the other. -/
def ofList (pairs : List (String × α)) : Dictionary α :=
  pairs.foldl (fun d pair => d.put pair.1 pair.2) empty

/-! ### The values found -/

theorem lookup_replace (name : String) (value : α) (entries : List (String × α)) (n : String) :
    (replace name value entries).lookup n =
      if n = name ∧ (entries.lookup n).isSome then some value else entries.lookup n := by
  induction entries with
  | nil => simp [replace]
  | cons entry entries ih =>
    obtain ⟨key, old⟩ := entry
    -- The first entry of the name is replaced, and it is the one that is found.
    by_cases hkey : key = name
    · subst hkey
      rw [replace, if_pos rfl]
      by_cases hn : n = key
      · simp [hn]
      · simp [List.lookup_cons, beq_false_of_ne hn, hn]
    · rw [replace, if_neg hkey]
      by_cases hn : n = key
      · simp [hn, hkey]
      · simp only [List.lookup_cons, beq_false_of_ne hn, ih]

/-- Putting a name changes what is found for it, and nothing else. -/
theorem find?_put (d : Dictionary α) (name : String) (value : α) (n : String) :
    (d.put name value).find? n = if n = name then some value else d.find? n := by
  unfold put
  split
  · rename_i hhas
    simp only [find?, lookup_replace]
    by_cases hn : n = name
    · subst hn
      simp only [contains, find?] at hhas
      simp [hhas]
    · simp [hn]
  · rename_i hhas
    simp only [contains, find?, Bool.not_eq_true, Option.isSome_eq_false_iff,
      Option.isNone_iff_eq_none] at hhas
    simp only [find?, List.lookup_append, List.lookup_cons, List.lookup_nil]
    by_cases hn : n = name
    · subst hn
      simp [hhas]
    · simp [beq_false_of_ne hn, hn]

end Dictionary

end CartScript
