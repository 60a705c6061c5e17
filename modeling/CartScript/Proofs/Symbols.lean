import CartScript.Proofs.Expr.Evaluation
import CartScript.Symbols

/-!
# Names keep their values

A name gets its value once.  So whatever is known in the course of an assembly is still known at its
end, and an expression that had a value or a fault then has the same one in the end.
-/

namespace CartScript

namespace Symbols

theorem source_def (s : Symbols) (name : String) : s.source name = s.values.find? name := rfl

/-! ## Names get their values once -/

theorem source_of_declare {s t : Symbols} {name : String} {value : Int64}
    (h : s.declare name value = .ok t) (n : String) :
    t.source n = if n = name then some value else s.source n := by
  unfold declare at h
  split at h
  · simp at h
  · simp only [Except.ok.injEq] at h
    subst h
    exact Dictionary.find?_put ..

theorem declare_within {s t : Symbols} {name : String} {value : Int64}
    (h : s.declare name value = .ok t) : s.source.Within t.source := by
  intro n v hn
  rw [source_of_declare h]
  split
  · -- A name that has a value cannot be declared.
    rename_i heq
    subst heq
    have hhas : s.values.contains n = true := by
      rw [Dictionary.contains, ← source_def, hn]
      rfl
    simp [declare, hhas] at h
  · exact hn

@[simp]
theorem source_noteUse (position : Position) (s : Symbols) (name : String) :
    (s.noteUse position name).source = s.source := by
  unfold noteUse
  split <;> rfl

@[simp]
theorem source_noteUses (s : Symbols) (statement : Located Statement) :
    (s.noteUses statement).source = s.source := by
  unfold noteUses
  -- Which names are used does not matter; noting one gives none of them a value.
  generalize statement.value.exprs.flatMap Expr.labels = names
  induction names generalizing s with
  | nil => rfl
  | cons name names ih => rw [List.foldl_cons, ih, source_noteUse]

/-! ## Constants that wait -/

theorem Round.step_within (r : Round) (c : WaitingConstant) :
    r.symbols.source.Within (r.step c).symbols.source := by
  unfold Round.step
  split
  · split
    · rename_i hdeclare
      exact declare_within hdeclare
    · exact .refl _
  · exact .refl _
  · exact .refl _

theorem round_within (s : Symbols) (waiting : List WaitingConstant) (complaints : List Complaint) :
    s.source.Within (s.round waiting complaints).symbols.source := by
  have hfold (r : Round) : r.symbols.source.Within (waiting.foldl Round.step r).symbols.source := by
    induction waiting generalizing r with
    | nil => exact .refl _
    | cons c waiting ih => exact (r.step_within c).trans (ih (r.step c))
  exact hfold { symbols := s, complaints }

theorem settleFrom_within (s : Symbols) (waiting : List WaitingConstant)
    (complaints : List Complaint) :
    s.source.Within (s.settleFrom waiting complaints).1.source := by
  -- Round after round, as long as one more constant gets its value.
  fun_induction settleFrom s waiting complaints with
  | case1 s waiting complaints r _ ih => exact (round_within s waiting complaints).trans ih
  | case2 s waiting complaints r _ => exact round_within s waiting complaints

/-- `settle` keeps the values that names have. -/
theorem settle_within (s : Symbols) (waiting : List WaitingConstant) :
    s.source.Within (s.settle waiting).1.source :=
  settleFrom_within s waiting []

/-- With nothing waiting there is nothing to settle. -/
theorem settle_nil (s : Symbols) : s.settle [] = (s, []) := by
  simp [settle, settleFrom, round]

/-! ## Early values are final -/

variable {s t : Symbols} {e : Expr} {here : UInt32}

/-- A value that was known early is the final one. -/
theorem resolve_of_known (hst : s.source.Within t.source) {v : Int64}
    (h : e.eval s.source here = .ok (.known v)) : t.resolve e here = .ok v := by
  rw [resolve, Expr.resolve, Expr.eval_of_known hst h]
  rfl

/-- A fault that was found early is found in the end. -/
theorem resolve_of_fault (he : e.WellFormed) (hst : s.source.Within t.source) {fault : EvalFault}
    (h : e.eval s.source here = .error fault) : t.resolve e here = .error (.eval fault) := by
  rw [resolve, Expr.resolve, Expr.eval_of_fault he hst h, he.fault_eq h]
  rfl

end Symbols

end CartScript
