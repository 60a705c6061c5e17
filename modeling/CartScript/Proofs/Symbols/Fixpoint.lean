import CartScript.Proofs.Expr.Deferred
import CartScript.Proofs.Symbols.Uses

/-!
# What settling constants computes

Constants that wait are tried in rounds.  The values that result are the least ones that extend the
table and agree with the constants that got theirs.  If the constants have different names, and new
ones, then these least values do not depend on the order of the constants, and neither does what is
said about the others.
-/

namespace CartScript

namespace Symbols

open SymbolSource

variable {s t : Symbols} {waiting : List WaitingConstant}

/-- Each constant gets its value or is refused. -/
theorem exists_accounts (s : Symbols) (hvalues : ∀ c ∈ waiting, c.value.WellFormed) :
    ∃ declared refused, Accounts s (s.settle waiting).1 waiting declared refused ∧
      (s.settle waiting).2 = refused.map (s.settle waiting).1.refuse :=
  Underway.settleFrom [] hvalues ⟨[], [], .refl _, .nil _, rfl, by simp⟩

/-- What is said of a constant depends on the values of names and on where they are used first. -/
theorem refuse_congr (hsource : t.source = s.source) (huses : t.firstUses = s.firstUses) :
    t.refuse = s.refuse := by
  funext c
  simp only [refuse, refusal, hsource, firstUse?, huses]

/-- Settling gives each constant that waits its value or complains of it, once.  The constants that
    get values add the values of their expressions, under all values in the end, to the table, and
    the table holds no more than it must.  A constant whose expression has a value is refused only if
    its name is taken.  If the names of the constants are new and differ, the values are the least
    ones that agree with all of the constants, and in any other order of the constants the same
    values come out, with the same complaints about the same constants. -/
theorem settle_least_fixpoint (s : Symbols) {waiting : List WaitingConstant}
    (hbuilt : ∀ c ∈ waiting, ∃ parts, Expr.build parts = some c.value) :
    let final := (s.settle waiting).1
    ∃ declared refused,
      (declared ++ refused).Perm waiting ∧
      (s.settle waiting).2 = refused.map final.refuse ∧
      Grown s.source declared final.source ∧
      (∀ c ∈ refused, ∀ v, c.value.eval final.source c.here = .ok (.known v) →
        (final.source c.name).isSome) ∧
      ((waiting.map WaitingConstant.name).Nodup → (∀ c ∈ waiting, s.source c.name = none) →
        (Closed waiting final.source ∧
          ∀ values, s.source.Within values → Closed waiting values → final.source.Within values) ∧
        ∀ others, others.Perm waiting → (s.settle others).1.source = final.source ∧
          ∃ refused' : List WaitingConstant, refused'.Perm refused ∧
            (s.settle others).2 = refused'.map final.refuse) := by
  intro final
  have hvalues : ∀ c ∈ waiting, c.value.WellFormed := by
    intro c hc
    obtain ⟨parts, hparts⟩ := hbuilt c hc
    exact Expr.wellFormed_of_build hparts
  obtain ⟨declared, refused, haccounts, hsaid⟩ := exists_accounts s hvalues
  refine ⟨declared, refused, haccounts.shares, hsaid, haccounts.values, haccounts.taken, ?_⟩
  intro hdistinct hfresh
  refine ⟨⟨haccounts.closed hdistinct hfresh, fun values => haccounts.least⟩, ?_⟩
  intro others hperm
  obtain ⟨declared', refused', haccounts', hsaid'⟩ :=
    exists_accounts s fun c hc => hvalues c (hperm.mem_iff.1 hc)
  obtain ⟨hsource, hrefused⟩ := haccounts.perm hdistinct hfresh haccounts' hperm
  have huses : (s.settle others).1.firstUses = final.firstUses :=
    (firstUses_settle s others).trans (firstUses_settle s waiting).symm
  refine ⟨hsource, refused', hrefused, ?_⟩
  rw [hsaid', refuse_congr hsource huses]

namespace Sample

/-- A table with one label. -/
def table : Symbols := { values := ⟨[("end", 0x40)]⟩ }

def constant (name : String) (line : Nat) (nodes : List Node) : WaitingConstant :=
  { name, value := ⟨nodes⟩, here := 0, position := ⟨"t", line, 1⟩ }

/-- `B = A`, `E = 1 / (A - end)`, `F = F`, `G = lost / 0` and `A = end` -/
def tangle : List WaitingConstant :=
  [constant "B" 1 [.label "A"],
    constant "E" 2 [.number 1, .label "A", .label "end", .binary .minus, .binary .divide],
    constant "F" 3 [.label "F"],
    constant "G" 4 [.label "lost", .number 0, .binary .divide],
    constant "A" 5 [.label "end"]]

theorem tangle_built : ∀ c ∈ tangle, ∃ parts, Expr.build parts = some c.value := by
  refine List.forall_mem_cons.2 ⟨⟨[.value (.label "A")], by decide⟩, ?_⟩
  refine List.forall_mem_cons.2 ⟨⟨[.value (.number 1), .operator .divide, .openParen,
    .value (.label "A"), .operator .minus, .value (.label "end"), .closeParen], by decide⟩, ?_⟩
  refine List.forall_mem_cons.2 ⟨⟨[.value (.label "F")], by decide⟩, ?_⟩
  refine List.forall_mem_cons.2 ⟨⟨[.value (.label "lost"), .operator .divide, .value (.number 0)],
    by decide⟩, ?_⟩
  exact List.forall_mem_singleton.2 ⟨[.value (.label "end")], by decide⟩

end Sample

/-- From the last constant to the first they come out the same. -/
theorem settle_least_fixpoint_tangle :
    (Sample.tangle.map WaitingConstant.name).Nodup ∧
    (∀ c ∈ Sample.tangle, Sample.table.source c.name = none) ∧
    (Sample.table.settle Sample.tangle.reverse).1.source =
      (Sample.table.settle Sample.tangle).1.source ∧
    (Sample.table.settle Sample.tangle.reverse).2.Perm (Sample.table.settle Sample.tangle).2 := by
  have hdistinct : (Sample.tangle.map WaitingConstant.name).Nodup := by decide
  have hfresh : ∀ c ∈ Sample.tangle, Sample.table.source c.name = none := by decide
  obtain ⟨_, _, _, hsaid, _, _, horder⟩ := settle_least_fixpoint Sample.table Sample.tangle_built
  obtain ⟨hsource, _, hrefused, hsaid'⟩ :=
    (horder hdistinct hfresh).2 Sample.tangle.reverse (List.reverse_perm _)
  refine ⟨hdistinct, hfresh, hsource, ?_⟩
  rw [hsaid, hsaid']
  exact hrefused.map _

end Symbols

end CartScript
