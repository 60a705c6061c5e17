import CartScript.Proofs.Expr.Evaluation

/-!
# Built expressions are well formed

On the way a builder holds a part of the postfix form and the operators that wait.  Each operator
between two values that waits has its left value in the output already, so the output leaves as many
values as there are such operators, and one more just after a value.
-/

namespace CartScript.Expr

namespace Waiting

/-- Whether an operator between two values waits. -/
def isBetween : Waiting → Bool
  | .binary _ => true
  | _ => false

/-- Whether what waits is an operator in its proper place. -/
def isProper : Waiting → Bool
  | .paren => true
  | .unary op => isUnary op
  | .binary op => isBinary op

end Waiting

namespace Builder

/-- How many operators between two values wait. -/
def openOperators (waiting : List Waiting) : Nat := waiting.countP Waiting.isBetween

@[simp]
theorem openOperators_paren (waiting : List Waiting) :
    openOperators (.paren :: waiting) = openOperators waiting := rfl

@[simp]
theorem openOperators_unary (op : Symbol) (waiting : List Waiting) :
    openOperators (.unary op :: waiting) = openOperators waiting := rfl

@[simp]
theorem openOperators_binary (op : Symbol) (waiting : List Waiting) :
    openOperators (.binary op :: waiting) = openOperators waiting + 1 := by
  simp [openOperators, List.countP_cons, Waiting.isBetween]

/-- The invariant of a builder: the output leaves one value for each operator between two values that
    waits, and one more after a value. -/
structure Balanced (b : Builder) : Prop where
  output : height b.output.reverse 0 =
    some (openOperators b.waiting + if b.afterValue then 1 else 0)
  proper : ∀ w ∈ b.waiting, w.isProper = true

/-- Whether a node is a value. -/
def isValue : Node → Bool
  | .number _ | .label _ | .here => true
  | _ => false

variable {b next : Builder} {op : Symbol} {waiting : List Waiting} {output : List Node}
  {node : Node}

theorem height_of_isValue (h : isValue node = true) (depth : Nat) :
    height [node] depth = some (depth + 1) := by
  cases node with
  | number | label | here => rfl
  | unary | binary => exact absurd h Bool.false_ne_true

/-- A builder with nothing in it. -/
theorem Balanced.empty : Balanced {} := ⟨rfl, by simp⟩

/-! ## Values and parentheses -/

theorem Balanced.value (hb : b.Balanced) (hn : isValue node = true) (h : b.value node = .ok next) :
    next.Balanced := by
  unfold Builder.value at h
  split at h
  · simp at h
  · rename_i hafter
    simp only [Except.ok.injEq] at h
    subst h
    refine ⟨?_, hb.proper⟩
    have hout := hb.output
    -- The builder waited for a value, so the output leaves one for each operator that waits.
    rw [if_neg hafter] at hout
    rw [List.reverse_cons, height_append, hout, if_pos rfl]
    exact height_of_isValue hn _

theorem Balanced.openParen (hb : b.Balanced) (h : b.openParen = .ok next) : next.Balanced := by
  unfold Builder.openParen at h
  split at h
  · simp at h
  · simp only [Except.ok.injEq] at h
    subst h
    refine ⟨hb.output, ?_⟩
    intro w hw
    rcases List.mem_cons.1 hw with rfl | hw
    · rfl
    · exact hb.proper w hw

/-! ## Operators that are written out -/

/-- Writing out an operator that waits: the one between two values finds both of them. -/
theorem height_release {w : Waiting} (hw : w.isProper = true)
    (hout : height output.reverse 0 = some (openOperators (w :: waiting) + 1)) :
    height (w.node?.toList ++ output).reverse 0 = some (openOperators waiting + 1) := by
  cases w with
  | paren => simpa [Waiting.node?] using hout
  | unary op =>
    rw [openOperators_unary] at hout
    simp [Waiting.node?, height_append, hout, height, show isUnary op = true from hw]
  | binary op =>
    rw [openOperators_binary] at hout
    simp [Waiting.node?, height_append, hout, height, show isBinary op = true from hw]

theorem release_spec (looseness : Nat) (waiting : List Waiting) (output : List Node)
    (hproper : ∀ w ∈ waiting, w.isProper = true)
    (hout : height output.reverse 0 = some (openOperators waiting + 1)) :
    height (release looseness waiting output).2.reverse 0 =
        some (openOperators (release looseness waiting output).1 + 1) ∧
      ∀ w ∈ (release looseness waiting output).1, w.isProper = true := by
  induction waiting generalizing output with
  | nil => exact ⟨hout, by simp [release]⟩
  | cons w waiting ih =>
    rw [release]
    split
    · exact ih _ (fun w hw => hproper w (.tail _ hw))
        (height_release (hproper w (.head _)) hout)
    · exact ⟨hout, hproper⟩

theorem releaseToParen_spec {rest : List Waiting} {done : List Node}
    (hproper : ∀ w ∈ waiting, w.isProper = true)
    (hout : height output.reverse 0 = some (openOperators waiting + 1))
    (h : releaseToParen waiting output = some (rest, done)) :
    height done.reverse 0 = some (openOperators rest + 1) ∧ ∀ w ∈ rest, w.isProper = true := by
  induction waiting generalizing output with
  | nil => simp [releaseToParen] at h
  | cons w waiting ih =>
    have hrest : ∀ w ∈ waiting, w.isProper = true :=
      fun w hw => hproper w (.tail _ hw)
    have hnext := height_release (hproper w (.head _)) hout
    cases w with
    | paren =>
      simp only [releaseToParen, Option.some.injEq, Prod.mk.injEq] at h
      obtain ⟨rfl, rfl⟩ := h
      exact ⟨hnext, hrest⟩
    | unary op | binary op =>
      -- An operator above the parenthesis is written out, and the search goes on.
      rw [releaseToParen] at h
      · exact ih hrest hnext h
      · simp

theorem Balanced.closeParen (hb : b.Balanced) (h : b.closeParen = .ok (some next)) :
    next.Balanced := by
  unfold Builder.closeParen at h
  split at h
  · simp at h
  · split at h
    · simp at h
    · rename_i _ hafter
      have hafter : b.afterValue = true := by simpa using hafter
      have hout := hb.output
      rw [if_pos hafter] at hout
      split at h
      · simp at h
      · rename_i rest done hrel
        simp only [Except.ok.injEq, Option.some.injEq] at h
        subst h
        obtain ⟨hdone, hrest⟩ := releaseToParen_spec hb.proper hout hrel
        exact ⟨by rw [if_pos hafter]; exact hdone, hrest⟩

theorem Balanced.waitUnary (hb : b.Balanced) (hafter : b.afterValue = false)
    (hop : isUnary op = true) : (b.waitUnary op).Balanced := by
  refine ⟨?_, ?_⟩
  · have hout := hb.output
    rw [hafter] at hout
    simpa [Builder.waitUnary] using hout
  · intro w hw
    rcases List.mem_cons.1 hw with rfl | hw
    · exact hop
    · exact hb.proper w hw

theorem Balanced.waitBinary (hb : b.Balanced) (hafter : b.afterValue = true)
    (hop : isBinary op = true) : (b.waitBinary op).Balanced := by
  have hout := hb.output
  rw [if_pos hafter] at hout
  -- Operators that bind more tightly are written out first; each of them has both of its values.
  obtain ⟨hrel, hproper⟩ := release_spec op.looseness b.waiting b.output hb.proper hout
  refine ⟨?_, ?_⟩
  · simpa [Builder.waitBinary] using hrel
  · intro w hw
    rcases List.mem_cons.1 hw with rfl | hw
    · exact hop
    · exact hproper w hw

theorem Balanced.operator (hb : b.Balanced) (h : b.operator op = .ok (some next)) :
    next.Balanced := by
  unfold Builder.operator at h
  split at h
  · simp at h
  · rename_i hrole
    simp only [Except.ok.injEq, Option.some.injEq] at h
    subst h
    -- A symbol with both roles is read by where it stands.
    cases hafter : b.afterValue with
    | true => exact hb.waitBinary hafter (by simp [isBinary, hrole])
    | false => exact hb.waitUnary hafter (by simp [isUnary, hrole])
  · rename_i hrole
    split at h
    · simp at h
    · rename_i hafter
      simp only [Except.ok.injEq, Option.some.injEq] at h
      subst h
      exact hb.waitUnary (by simpa using hafter) (by simp [isUnary, hrole])
  · rename_i hrole
    split at h
    · rename_i hafter
      simp only [Except.ok.injEq, Option.some.injEq] at h
      subst h
      exact hb.waitBinary hafter (by simp [isBinary, hrole])
    · simp at h

/-! ## The finished expression -/

/-- What waits at the end uses up all values but one. -/
theorem height_waiting (waiting : List Waiting) (hproper : ∀ w ∈ waiting, w.isProper = true) :
    height (waiting.filterMap Waiting.node?) (openOperators waiting + 1) = some 1 := by
  induction waiting with
  | nil => rfl
  | cons w waiting ih =>
    have hrest := ih fun w hw => hproper w (.tail _ hw)
    have hw := hproper w (.head _)
    cases w with
    | paren => simpa [List.filterMap_cons, Waiting.node?] using hrest
    | unary op =>
      have hop : isUnary op = true := hw
      simpa [List.filterMap_cons, Waiting.node?, height, hop] using hrest
    | binary op =>
      have hop : isBinary op = true := hw
      simpa [List.filterMap_cons, Waiting.node?, height, hop] using hrest

/-- A finished expression is well formed. -/
theorem wellFormed_of_finish {e : Expr} (hb : b.Balanced) (h : b.finish = .ok e) :
    e.WellFormed := by
  unfold finish at h
  split at h
  · simp at h
  · rename_i hafter
    split at h
    · simp at h
    · simp only [Except.ok.injEq] at h
      subst h
      have hout := hb.output
      rw [if_pos (by simpa using hafter)] at hout
      rw [WellFormed, height_append, hout]
      exact height_waiting b.waiting hb.proper

end Builder

end CartScript.Expr
