/-!
# Outcomes of computations that may fail

When a mapped or chained outcome is a success, what a chain of steps preserves, and which faults a
computation may have.
-/

namespace Except

variable {ε α β : Type}

variable {x : Except ε α} {items : List α} {f : β → α → Except ε β} {b b' : β}

/-- What the success of `map` is. -/
theorem map_eq_ok_iff {f : α → β} : x.map f = .ok b ↔ ∃ a, x = .ok a ∧ f a = b := by
  cases x <;> simp [Except.map]

/-- `map` succeeds if and only if the outcome is a success. -/
theorem exists_map_eq_ok_iff {f : α → β} : (∃ b, x.map f = .ok b) ↔ ∃ a, x = .ok a := by
  cases x <;> simp [Except.map]

/-- A chain of two computations succeeds if and only if both of them do. -/
theorem bind_eq_ok_iff {f : α → Except ε β} : x >>= f = .ok b ↔ ∃ a, x = .ok a ∧ f a = .ok b := by
  cases x <;> simp [bind, Except.bind]

/-- What comes after a check succeeds if and only if the check does not fail and it succeeds. -/
theorem ite_error_eq_ok_iff {c : Prop} [Decidable c] {e : ε} {a : α} :
    (if c then .error e else x) = .ok a ↔ ¬ c ∧ x = .ok a := by
  split <;> simp [*]

theorem toOption_eq_some_iff {a : α} : x.toOption = some a ↔ x = .ok a := by
  cases x <;> simp [Except.toOption]

theorem toOption_bind (x : Except ε α) (f : α → Except ε β) :
    (x.bind f).toOption = x.toOption.bind fun a => (f a).toOption := by
  cases x <;> rfl

/-- A loop of checks succeeds if and only if each check does. -/
theorem forM_eq_ok_iff {f : α → Except ε Unit} :
    items.forM f = .ok () ↔ ∀ a ∈ items, f a = .ok () := by
  induction items with
  | nil => simp [List.forM_nil, pure, Except.pure]
  | cons a items ih =>
    rw [List.forM_eq_forM, List.forM_cons, bind_eq_ok_iff, List.forall_mem_cons]
    constructor
    · rintro ⟨_, hfirst, hrest⟩
      exact ⟨hfirst, ih.1 hrest⟩
    · rintro ⟨hfirst, hrest⟩
      exact ⟨_, hfirst, ih.2 hrest⟩

/-- A chain of steps that keeps account of the items it has taken. -/
theorem foldlM_past (P : List α → β → Prop)
    (hstep : ∀ past b a b', P past b → f b a = .ok b' → P (past ++ [a]) b') (hb : P [] b)
    (h : items.foldlM f b = .ok b') : P items b' := by
  suffices ∀ past, P past b → P (past ++ items) b' from this [] hb
  clear hb
  intro past hpast
  induction items generalizing past b with
  | nil =>
    simp only [List.foldlM_nil, pure, Except.pure, Except.ok.injEq] at h
    rw [List.append_nil]
    exact h ▸ hpast
  | cons a items ih =>
    rw [List.foldlM_cons] at h
    obtain ⟨next, hnext, hrest⟩ := bind_eq_ok_iff.1 h
    rw [← List.singleton_append, ← List.append_assoc]
    exact ih hrest _ (hstep past b a next hpast hnext)

/-- What every step preserves, a chain of steps preserves. -/
theorem foldlM_induction (P : β → Prop) (hstep : ∀ b a b', P b → f b a = .ok b' → P b') (hb : P b)
    (h : items.foldlM f b = .ok b') : P b' :=
  foldlM_past (fun _ => P) (fun _ => hstep) hb h

/-! ## Faults -/

/-- Every fault of a computation is as told. -/
def FailsOnly (P : ε → Prop) (x : Except ε α) : Prop := ∀ e, x = .error e → P e

variable {P : ε → Prop} {x : Except ε α}

theorem FailsOnly.ok (a : α) : FailsOnly P (.ok a : Except ε α) := fun _ h => by cases h

theorem FailsOnly.error {e : ε} (h : P e) : FailsOnly P (.error e : Except ε α) :=
  fun _ heq => error.inj heq ▸ h

theorem FailsOnly.mono {Q : ε → Prop} (h : x.FailsOnly P) (hPQ : ∀ e, P e → Q e) : x.FailsOnly Q :=
  fun e he => hPQ e (h e he)

theorem FailsOnly.map (h : x.FailsOnly P) (f : α → β) : (x.map f).FailsOnly P := by
  cases x with
  | ok a => exact .ok _
  | error e => exact .error (h e rfl)

theorem FailsOnly.bind (h : x.FailsOnly P) {f : α → Except ε β}
    (hf : ∀ a, x = .ok a → (f a).FailsOnly P) : (x.bind f).FailsOnly P := by
  cases x with
  | ok a => exact hf a rfl
  | error e => exact .error (h e rfl)

theorem FailsOnly.ite {c : Prop} [Decidable c] {y : Except ε α} (hx : c → x.FailsOnly P)
    (hy : ¬ c → y.FailsOnly P) : (if c then x else y).FailsOnly P := by
  split
  · exact hx ‹_›
  · exact hy ‹_›

end Except
