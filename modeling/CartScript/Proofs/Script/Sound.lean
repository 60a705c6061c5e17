import CartScript.Proofs.Expr.Built
import CartScript.Proofs.Registry.Consistent
import CartScript.Script.Grammar
import Mathlib.Data.List.Basic

/-!
# Sound statements

What the statements of a program promise when the program was read from a script: expressions are
well formed, and the arguments of a code suit its parameters.
-/

namespace CartScript

/-- A list that stands for an argument has items. -/
def Arg.Proper : Arg → Prop
  | .list items => items ≠ []
  | _ => True

/-- What a script promises about a statement, read against a registry. -/
structure Statement.Sound (registry : Registry) (statement : Statement) : Prop where
  exprs : ∀ e ∈ statement.exprs, e.WellFormed
  code : ∀ index args, statement = .code index args →
    (∀ arg ∈ args, arg.Proper) ∧
      ∃ code, registry.at? index = some code ∧ code.checkArgs args = .ok ()
  width : ∀ width values, statement = .data width values → 1 ≤ width ∧ width ≤ 8

namespace Parsing

variable {b : Expr.Builder} {registry : Registry}

/-- A token that belongs to an expression keeps the builder balanced. -/
theorem balanced_of_offer {next : Expr.Builder} {token : Token} (hb : b.Balanced)
    (h : offer b token = .ok (some next)) : next.Balanced := by
  unfold offer at h
  split at h
  · obtain ⟨_, hv, hn⟩ := Except.map_eq_ok_iff.1 h
    obtain rfl := Option.some.inj hn
    exact hb.value rfl hv
  · obtain ⟨_, hv, hn⟩ := Except.map_eq_ok_iff.1 h
    obtain rfl := Option.some.inj hn
    refine hb.value ?_ hv
    split <;> rfl
  · obtain ⟨_, hv, hn⟩ := Except.map_eq_ok_iff.1 h
    obtain rfl := Option.some.inj hn
    exact hb.openParen hv
  · exact hb.closeParen h
  · exact hb.operator h
  · simp at h

theorem wellFormed_constant (v : Int64) : (Expr.constant v).WellFormed := rfl

/-- What the reader promises about an argument. -/
def ArgRead (arg : Arg) : Prop := arg.Proper ∧ ∀ e ∈ arg.exprs, e.WellFormed

/-- A statement other than the use of a code is sound if its expressions are well formed. -/
theorem sound_of_exprs {statement : Statement} (hcode : ∀ index args, statement ≠ .code index args)
    (h : ∀ e ∈ statement.exprs, e.WellFormed)
    (hwidth : ∀ width values, statement = .data width values → 1 ≤ width ∧ width ≤ 8) :
    statement.Sound registry :=
  ⟨h, fun index args heq => absurd heq (hcode index args), hwidth⟩

/-- Values are one, two or four bytes wide. -/
theorem width_of_ofName? {name : String} {width : Nat}
    (h : Keyword.ofName? name = some (.data width)) : 1 ≤ width ∧ width ≤ 8 := by
  obtain ⟨before, after, htable, -⟩ := List.lookup_eq_some_iff.1 h
  have hmem : (name, Keyword.data width) ∈ before ++ (name, .data width) :: after := by simp
  rw [← htable] at hmem
  simp only [List.mem_cons, List.not_mem_nil, Prod.mk.injEq, Keyword.data.injEq, reduceCtorEq,
    and_false, false_or, or_false] at hmem
  omega

/-- A code that was looked up stands at its index. -/
theorem at?_of_get? {r : Registry} (hr : r.Consistent) {name game : String} {code : Code}
    (h : r.get? name game = some code) : r.at? code.index = some code := by
  obtain ⟨i, hat⟩ := Registry.exists_at?_of_mem (hr.tabled.mem_of_get? h).1
  -- A code of a registry knows where it stands.
  rw [hr.index i code hat, hat]

end Parsing

end CartScript
