import CartScript.Expr.Builder
import CartScript.Proofs.Except

/-!
# Evaluation with more names known

An expression that was built from operators and values in their proper places is *well formed*: no
operator lacks a value, and one value is left.

It may be evaluated twice: at its place, where some names have no value yet, and again when all names
are known.  What the first evaluation settles, the second one confirms.
-/

namespace CartScript

/-- Every name that has a value in `s` has the same value in `t`. -/
def SymbolSource.Within (s t : SymbolSource) : Prop :=
  ∀ name v, s name = some v → t name = some v

theorem SymbolSource.Within.refl (s : SymbolSource) : s.Within s := fun _ _ h => h

theorem SymbolSource.Within.trans {s t u : SymbolSource} (hst : s.Within t) (htu : t.Within u) :
    s.Within u :=
  fun name v h => htu name v (hst name v h)

namespace Expr

/-! ## Well-formed expressions -/

/-- Whether a symbol may stand in front of a value. -/
def isUnary (op : Symbol) : Bool := op.role?.any (· != .between)

/-- Whether a symbol may stand between two values. -/
def isBinary (op : Symbol) : Bool := op.role?.any (· != .inFront)

/-- How many values nodes leave on a stack of `depth` ones, if every operator has a meaning and
    finds its values. -/
def height : List Node → (depth : Nat) → Option Nat
  | [], depth => some depth
  | .number _ :: nodes, depth => height nodes (depth + 1)
  | .label _ :: nodes, depth => height nodes (depth + 1)
  | .here :: nodes, depth => height nodes (depth + 1)
  | .unary op :: nodes, depth => if isUnary op ∧ 1 ≤ depth then height nodes depth else none
  | .binary op :: nodes, depth => if isBinary op ∧ 2 ≤ depth then height nodes (depth - 1) else none

/-- Every operator finds its values, and one value is left. -/
def WellFormed (e : Expr) : Prop := height e.nodes 0 = some 1

instance (e : Expr) : Decidable e.WellFormed := inferInstanceAs (Decidable (_ = _))

theorem height_append (xs ys : List Node) (depth : Nat) :
    height (xs ++ ys) depth = (height xs depth).bind (height ys) := by
  induction xs generalizing depth with
  | nil => rfl
  | cons node xs ih =>
    cases node with
    | number v | label name | here => simp only [List.cons_append, height, ih]
    | unary op | binary op =>
      simp only [List.cons_append, height, ih]
      split <;> rfl

theorem labels_append (xs ys : List Node) : labels ⟨xs ++ ys⟩ = labels ⟨xs⟩ ++ labels ⟨ys⟩ :=
  List.filterMap_append ..

/-- A symbol that may stand in front of a value has a meaning there. -/
theorem applyUnary_eq_ok {op : Symbol} (h : isUnary op = true) (v : Int64) :
    ∃ r, applyUnary op v = .ok r := by
  cases op <;> simp [isUnary, Symbol.role?] at h <;> exact ⟨_, rfl⟩

/-- A symbol that may stand between two values has a meaning there, a division by zero apart. -/
theorem applyBinary_cases {op : Symbol} (h : isBinary op = true) (a b : Int64) (excused : Bool) :
    (∃ r, applyBinary op a b excused = .ok r) ∨
      excused = false ∧ applyBinary op a b excused = .error .divisionByZero := by
  have hdiv (f : Int64 → Int64 → Int64) : (∃ r, divide f a b excused = .ok r) ∨
      excused = false ∧ divide f a b excused = .error .divisionByZero := by
    unfold divide
    split
    · cases excused
      · exact .inr ⟨rfl, rfl⟩
      · exact .inl ⟨0, rfl⟩
    · exact .inl ⟨_, rfl⟩
  cases op <;> simp [isBinary, Symbol.role?] at h
  case divide => exact hdiv _
  case modulo => exact hdiv _
  all_goals exact .inl ⟨_, rfl⟩

namespace Machine

variable {s t : SymbolSource} {here : UInt32}

/-! ## One node -/

variable {last m next : Machine} {nodes : List Node} {node : Node} {h : Nat} {fault : EvalFault}

/-- What a node of a well-formed expression does: it leaves a stack of the height foretold, or it
    divides by zero while no name is missing. -/
theorem step_of_height (s : SymbolSource) (here : UInt32)
    (hh : height (node :: nodes) m.stack.length = some h) :
    (∃ next, m.step s here node = .ok next ∧ height nodes next.stack.length = some h ∧
      (m.missing.isSome → next.missing.isSome)) ∨
      m.missing = none ∧ m.step s here node = .error .divisionByZero := by
  cases node with
  | number v | here => exact .inl ⟨_, rfl, by simpa [height, push] using hh, id⟩
  | label name =>
    left
    simp only [step]
    cases s name with
    | some v => exact ⟨_, rfl, by simpa [height, push] using hh, id⟩
    | none =>
      refine ⟨_, rfl, by simpa [height, pushMissing] using hh, ?_⟩
      -- The first name that is missing is kept.
      cases hm : m.missing <;> simp [pushMissing, hm]
  | unary op =>
    obtain ⟨stack, missing⟩ := m
    cases stack with
    | nil => simp [height] at hh
    | cons v rest =>
      rw [height, List.length_cons] at hh
      split at hh
      · rename_i hop
        obtain ⟨r, hr⟩ := applyUnary_eq_ok hop.1 v
        exact .inl ⟨⟨r :: rest, missing⟩, by simp [step, hr, Except.map], by simpa using hh, id⟩
      · simp at hh
  | binary op =>
    obtain ⟨stack, missing⟩ := m
    match stack with
    | [] | [v] => simp [height] at hh
    | b :: a :: rest =>
      rw [height] at hh
      split at hh
      · rename_i hop
        -- A division by zero is excused once a name is missing, since the values are not the final
        -- ones.
        rcases applyBinary_cases hop.1 a b missing.isSome with ⟨r, hr⟩ | ⟨hnone, hr⟩
        · exact .inl ⟨⟨r :: rest, missing⟩, by simp [step, hr, Except.map], by simpa using hh, id⟩
        · exact .inr ⟨by simpa using hnone, by simp [step, hr, Except.map]⟩
      · simp at hh

/-- A step adds the label that it cannot look up, unless a name is missing already. -/
theorem missing_of_step_eq (h : m.step s here node = .ok next) :
    next.missing = m.missing.or ((labels ⟨[node]⟩).find? fun name => (s name).isNone) := by
  cases node with
  | number v | here =>
    rw [← Except.ok.inj h]
    exact (Option.or_none ..).symm
  | label name =>
    simp only [step] at h
    cases hv : s name with
    | some v =>
      rw [hv] at h
      rw [← Except.ok.inj h]
      simp [labels, push, hv]
    | none =>
      rw [hv] at h
      rw [← Except.ok.inj h]
      simp [labels, pushMissing, hv]
  | unary op | binary op =>
    simp only [step] at h
    split at h
    · obtain ⟨r, _, rfl⟩ := Except.map_eq_ok_iff.1 h
      exact (Option.or_none ..).symm
    · simp at h

/-- A step that misses no name is the same with more names known. -/
theorem step_of_within (hst : s.Within t) (h : m.step s here node = .ok next)
    (hn : next.missing = none) : m.step t here node = .ok next := by
  cases node with
  | number v | here | unary op | binary op => exact h
  | label name =>
    simp only [step] at h ⊢
    cases hv : s name with
    | some v => rw [hst name v hv]; rwa [hv] at h
    | none =>
      rw [hv] at h
      simp only [Except.ok.injEq] at h
      subst h
      simp [pushMissing] at hn

/-- The fault of a node does not depend on the names known. -/
theorem step_of_fault (h : m.step s here node = .error fault) :
    m.step t here node = .error fault := by
  cases node with
  | number v | here | unary op | binary op => exact h
  | label name =>
    simp only [step] at h
    split at h <;> simp at h

/-! ## All nodes -/

/-- After a run the first label without a value is missing, unless a name was missing before. -/
theorem missing_of_run_eq (h : run s here nodes m = .ok last) :
    last.missing = m.missing.or ((labels ⟨nodes⟩).find? fun name => (s name).isNone) := by
  induction nodes generalizing m with
  | nil =>
    rw [← Except.ok.inj h]
    exact (Option.or_none ..).symm
  | cons node nodes ih =>
    simp only [run] at h
    split at h
    · rename_i next hnext
      rw [ih h, missing_of_step_eq hnext, Option.or_assoc, ← List.find?_append, ← labels_append,
        List.singleton_append]
    · simp at h

/-- A name that is missing stays missing. -/
theorem missing_of_run (h : run s here nodes m = .ok last) (hn : last.missing = none) :
    m.missing = none := by
  rw [missing_of_run_eq h, Option.or_eq_none_iff] at hn
  exact hn.1

/-- A run that misses no name is the same with more names known. -/
theorem run_of_within (hst : s.Within t) (h : run s here nodes m = .ok last)
    (hn : last.missing = none) : run t here nodes m = .ok last := by
  induction nodes generalizing m with
  | nil => exact h
  | cons node nodes ih =>
    simp only [run] at h ⊢
    split at h
    · rename_i next hnext
      -- Nothing is missing in the end, so nothing was missing after this step.
      rw [step_of_within hst hnext (missing_of_run h hn)]
      exact ih h
    · simp at h

/-- The run of a well-formed expression leaves a stack of the height foretold, or divides by zero while
    no name is missing. -/
theorem run_of_height (s : SymbolSource) (here : UInt32) (hh : height nodes m.stack.length = some h) :
    (∃ last, run s here nodes m = .ok last ∧ last.stack.length = h) ∨
      m.missing = none ∧ run s here nodes m = .error .divisionByZero := by
  induction nodes generalizing m with
  | nil => exact .inl ⟨m, rfl, by simpa [height] using hh⟩
  | cons node nodes ih =>
    rcases step_of_height s here hh with ⟨next, hnext, hheight, hmiss⟩ | ⟨hnone, hfault⟩
    · simp only [run, hnext]
      refine (ih hheight).imp_right ?_
      rintro ⟨hnone, hfault⟩
      exact ⟨by simpa [hnone] using hmiss, hfault⟩
    · exact .inr ⟨hnone, by simp only [run, hfault]⟩

/-- The fault of a well-formed expression is the same with more names known: it comes up before any
    name is missing. -/
theorem run_of_fault (hst : s.Within t) (hh : height nodes m.stack.length = some h)
    (hrun : run s here nodes m = .error fault) : run t here nodes m = .error fault := by
  induction nodes generalizing m with
  | nil => simp [run] at hrun
  | cons node nodes ih =>
    rcases step_of_height s here hh with ⟨next, hnext, hheight, _⟩ | ⟨_, hfault⟩
    · simp only [run, hnext] at hrun
      cases hmiss : next.missing with
      | none =>
        -- Nothing is missing so far, so the step is the same with more names known.
        simp only [run, step_of_within hst hnext hmiss]
        exact ih hheight hrun
      | some name =>
        -- after a missing name there are no faults
        rcases run_of_height s here hheight with ⟨last, hlast, -⟩ | ⟨hnone, -⟩
        · simp [hlast] at hrun
        · simp [hnone] at hmiss
    · simp only [run, hfault] at hrun
      simp only [run, step_of_fault (t := t) hfault, hrun]

/-- A run looks only at the names that its nodes mention. -/
theorem run_congr (h : ∀ name, .label name ∈ nodes → s name = t name) (m : Machine) :
    run s here nodes m = run t here nodes m := by
  induction nodes generalizing m with
  | nil => rfl
  | cons node nodes ih =>
    have hstep : m.step s here node = m.step t here node := by
      cases node with
      | number v | here | unary op | binary op => rfl
      | label name => simp only [step, h name (.head _)]
    have hrest := ih fun name hname => h name (.tail _ hname)
    simp only [run, hstep, hrest]

/-! ## The value at the end -/

/-- With one value left, the result is that value or the name that was missing. -/
theorem result_of_length (h : m.stack.length = 1) :
    (∃ v, m.missing = none ∧ m.result = .ok (.known v)) ∨
      ∃ name, m.missing = some name ∧ m.result = .ok (.deferred name) := by
  obtain ⟨v, hv⟩ := List.length_eq_one_iff.1 h
  cases hm : m.missing with
  | none => exact .inl ⟨v, rfl, by simp [result, hv, hm]⟩
  | some name => exact .inr ⟨name, rfl, by simp [result, hv, hm]⟩

theorem missing_of_result {v : Int64} (h : m.result = .ok (.known v)) : m.missing = none := by
  unfold result at h
  split at h
  · simp at h
  · rename_i hm
    exact hm
  · simp at h

theorem missing_of_result_deferred {name : String}
    (h : m.result = .ok (.deferred name)) : m.missing = some name := by
  unfold result at h
  split at h
  · rename_i hm
    rw [hm, Value.deferred.inj (Except.ok.inj h)]
  · simp at h
  · simp at h

end Machine

/-! ## Expressions -/

variable {s t : SymbolSource} {here : UInt32} {e : Expr}

/-- A value that is known stays the value when more names become known. -/
theorem eval_of_known (hst : s.Within t) {v : Int64} (h : e.eval s here = .ok (.known v)) :
    e.eval t here = .ok (.known v) := by
  unfold eval at h ⊢
  split at h
  · rename_i last hlast
    rw [Machine.run_of_within hst hlast (Machine.missing_of_result h)]
    exact h
  · simp at h

/-- An expression waits for its first label without a value. -/
theorem find?_labels_of_deferred {name : String}
    (h : e.eval s here = .ok (.deferred name)) :
    e.labels.find? (fun name => (s name).isNone) = some name := by
  unfold eval at h
  split at h
  · rename_i last hlast
    rw [← Machine.missing_of_result_deferred h, Machine.missing_of_run_eq hlast]
    rfl
  · simp at h

/-- The value of an expression depends only on the names that it mentions. -/
theorem eval_congr (h : ∀ name ∈ e.labels, s name = t name) : e.eval s here = e.eval t here := by
  have hnodes : ∀ name, .label name ∈ e.nodes → s name = t name := fun name hname =>
    h name (List.mem_filterMap.2 ⟨.label name, hname, rfl⟩)
  simp only [eval, Machine.run_congr hnodes]

/-- A well-formed expression has a value, misses a name, or divides by zero. -/
theorem WellFormed.eval_cases (he : e.WellFormed) (s : SymbolSource) (here : UInt32) :
    (∃ v, e.eval s here = .ok (.known v)) ∨ (∃ name, e.eval s here = .ok (.deferred name)) ∨
      e.eval s here = .error .divisionByZero := by
  unfold eval
  rcases Machine.run_of_height s here (m := {}) he with ⟨last, hlast, hlen⟩ | ⟨-, hfault⟩
  · rw [hlast]
    rcases Machine.result_of_length hlen with ⟨v, _, hv⟩ | ⟨name, _, hname⟩
    · exact .inl ⟨v, hv⟩
    · exact .inr (.inl ⟨name, hname⟩)
  · rw [hfault]
    exact .inr (.inr rfl)

/-- The only fault of a well-formed expression is a division by zero. -/
theorem WellFormed.fault_eq (he : e.WellFormed) {fault : EvalFault}
    (h : e.eval s here = .error fault) : fault = .divisionByZero := by
  rcases he.eval_cases s here with ⟨v, hv⟩ | ⟨name, hname⟩ | hfault
  · rw [hv] at h; simp at h
  · rw [hname] at h; simp at h
  · rw [hfault] at h
    exact (Except.error.inj h).symm

/-- The fault of a well-formed expression stays its fault when more names become known. -/
theorem eval_of_fault (he : e.WellFormed) (hst : s.Within t) {fault : EvalFault}
    (h : e.eval s here = .error fault) : e.eval t here = .error fault := by
  unfold eval at h ⊢
  rcases Machine.run_of_height s here (m := {}) he with ⟨last, hlast, hlen⟩ | ⟨-, hfault⟩
  · rw [hlast] at h
    rcases Machine.result_of_length hlen with ⟨v, _, hv⟩ | ⟨name, _, hname⟩
    · simp [hv] at h
    · simp [hname] at h
  · rw [hfault] at h
    rw [Machine.run_of_fault hst (m := {}) he hfault]
    exact h

end Expr

end CartScript
