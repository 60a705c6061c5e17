import CartScript.Proofs.Expr.Built
import CartScript.Proofs.Expr.Precedence

/-!
# Values that wait for names

A built expression may be evaluated before all of its names are known.  A missing name counts as 0,
and from then on a zero divisor is excused.  All the same nothing is settled too early: a value or a
fault that is found stays when more names become known.  And an expression that waits names the first of
its labels, as written, that has no value.
-/

namespace CartScript.Expr

/-! ## Labels in a builder -/

/-- The label that a part is. -/
def Part.label? : Part → Option String
  | .value (.label name) => some name
  | _ => none

theorem labels_leaf (leaf : Leaf) : labels ⟨[leaf.node]⟩ = (Part.label? (.value leaf)).toList := by
  cases leaf <;> rfl

namespace Builder

/-- What waits is no label. -/
theorem labels_waiting (waiting : List Waiting) :
    labels ⟨waiting.filterMap Waiting.node?⟩ = [] := by
  induction waiting with
  | nil => rfl
  | cons w waiting ih => cases w <;> simpa [labels, List.filterMap_cons, Waiting.node?] using ih

theorem labels_writeOut (w : Waiting) (output : List Node) :
    labels ⟨(w.node?.toList ++ output).reverse⟩ = labels ⟨output.reverse⟩ := by
  cases w <;> simp [labels, Waiting.node?]

theorem labels_release (looseness : Nat) (waiting : List Waiting) (output : List Node) :
    labels ⟨(release looseness waiting output).2.reverse⟩ = labels ⟨output.reverse⟩ := by
  induction waiting generalizing output with
  | nil => rfl
  | cons w waiting ih =>
    rw [release]
    split
    · rw [ih, labels_writeOut]
    · rfl

theorem labels_releaseToParen {waiting rest : List Waiting} {output done : List Node}
    (h : releaseToParen waiting output = some (rest, done)) :
    labels ⟨done.reverse⟩ = labels ⟨output.reverse⟩ := by
  induction waiting generalizing output with
  | nil => simp [releaseToParen] at h
  | cons w waiting ih =>
    cases w with
    | paren =>
      simp only [releaseToParen, Option.some.injEq, Prod.mk.injEq] at h
      rw [h.2]
    | unary op | binary op =>
      rw [releaseToParen] at h
      · rw [ih h, labels_writeOut]
      · simp

variable {b next : Builder} {part : Part} {parts : List Part}

theorem labels_take (h : b.take part = some next) :
    labels ⟨next.output.reverse⟩ = labels ⟨b.output.reverse⟩ ++ part.label?.toList := by
  cases part with
  | value leaf =>
    have hvalue : b.value leaf.node = .ok next := Except.toOption_eq_some_iff.1 h
    unfold Builder.value at hvalue
    split at hvalue
    · simp at hvalue
    · rw [← Except.ok.inj hvalue, List.reverse_cons, labels_append, labels_leaf]
  | operator op =>
    refine Eq.trans ?_ (List.append_nil _).symm
    -- An operator waits, and others may be written out before it.
    cases hafter : b.afterValue with
    | false =>
      rw [take_operator_front hafter, Option.ite_none_right_eq_some] at h
      rw [← Option.some.inj h.2]
      rfl
    | true =>
      rw [take_operator_between hafter, Option.ite_none_right_eq_some] at h
      rw [← Option.some.inj h.2]
      exact labels_release ..
  | openParen =>
    have hopen : b.openParen = .ok next := Except.toOption_eq_some_iff.1 h
    refine Eq.trans ?_ (List.append_nil _).symm
    unfold Builder.openParen at hopen
    split at hopen
    · simp at hopen
    · rw [← Except.ok.inj hopen]
  | closeParen =>
    have hclose : b.closeParen = .ok (some next) :=
      Except.toOption_eq_some_iff.1 (Option.join_eq_some_iff.1 h)
    refine Eq.trans ?_ (List.append_nil _).symm
    unfold Builder.closeParen at hclose
    split at hclose
    · simp at hclose
    · split at hclose
      · simp at hclose
      · split at hclose
        · simp at hclose
        · rename_i hrelease
          rw [← Option.some.inj (Except.ok.inj hclose)]
          exact labels_releaseToParen hrelease

theorem Balanced.take (hb : b.Balanced) (h : b.take part = some next) : next.Balanced := by
  cases part with
  | value leaf =>
    exact hb.value (by cases leaf <;> rfl) (Except.toOption_eq_some_iff.1 h)
  | operator op =>
    exact hb.operator (Except.toOption_eq_some_iff.1 (Option.join_eq_some_iff.1 h))
  | openParen => exact hb.openParen (Except.toOption_eq_some_iff.1 h)
  | closeParen =>
    exact hb.closeParen (Except.toOption_eq_some_iff.1 (Option.join_eq_some_iff.1 h))

/-- A builder that was given some parts: it is balanced, and has written out their labels. -/
structure Follows (parts : List Part) (b : Builder) : Prop where
  balanced : b.Balanced
  labels : labels ⟨b.output.reverse⟩ = parts.filterMap Part.label?

theorem Follows.empty : Follows [] {} := ⟨Balanced.empty, rfl⟩

/-- One more part. -/
theorem Follows.take (hb : Follows parts b) (h : b.take part = some next) :
    Follows (parts ++ [part]) next := by
  refine ⟨hb.balanced.take h, ?_⟩
  rw [labels_take h, hb.labels, List.filterMap_append, List.filterMap_cons]
  cases part.label? <;> rfl

/-- Any number of parts. -/
theorem Follows.takeAll {more : List Part} {last : Builder} (hb : Follows parts b)
    (h : more.foldlM Builder.take b = some last) : Follows (parts ++ more) last := by
  induction more generalizing parts b with
  | nil =>
    rw [List.foldlM_nil] at h
    rw [List.append_nil, ← Option.some.inj h]
    exact hb
  | cons part more ih =>
    rw [List.foldlM_cons] at h
    obtain ⟨next, hnext, hrest⟩ := Option.bind_eq_some_iff.1 h
    rw [List.append_cons]
    exact ih (hb.take hnext) hrest

end Builder

variable {parts : List Part} {e : Expr}

theorem follows_of_build (h : build parts = some e) :
    ∃ b : Builder, b.Follows parts ∧ b.finish = .ok e := by
  obtain ⟨b, htake, hfinish⟩ := Option.bind_eq_some_iff.1 h
  exact ⟨b, Builder.Follows.empty.takeAll htake, Except.toOption_eq_some_iff.1 hfinish⟩

/-- A built expression is well formed. -/
theorem wellFormed_of_build (h : build parts = some e) : e.WellFormed := by
  obtain ⟨b, hb, hfinish⟩ := follows_of_build h
  exact Builder.wellFormed_of_finish hb.balanced hfinish

/-- A built expression has the labels of its parts, in the order in which they are written. -/
theorem labels_of_build (h : build parts = some e) : e.labels = parts.filterMap Part.label? := by
  obtain ⟨b, hb, hfinish⟩ := follows_of_build h
  unfold Builder.finish at hfinish
  split at hfinish
  · simp at hfinish
  · split at hfinish
    · simp at hfinish
    · rw [← Except.ok.inj hfinish, labels_append, hb.labels, Builder.labels_waiting, List.append_nil]

/-- With more names known, a value stays the value, and an expression that waits, waits for its first
    label that has no value, so it waits for nothing when all of its labels have values.  Of a built
    expression a fault stays the fault, too, and its labels are those of its text in their order. -/
theorem build_eval_stable (e : Expr) {s t : SymbolSource} (hst : s.Within t) (here : UInt32) :
    (∀ v, e.eval s here = .ok (.known v) → e.eval t here = .ok (.known v)) ∧
    (∀ name, e.eval s here = .ok (.deferred name) →
      e.labels.find? (fun label => (s label).isNone) = some name) ∧
    ((∀ label ∈ e.labels, (t label).isSome) → ∀ name, e.eval t here ≠ .ok (.deferred name)) ∧
    ∀ parts, build parts = some e → e.labels = parts.filterMap Part.label? ∧
      ∀ fault, e.eval s here = .error fault → e.eval t here = .error fault := by
  refine ⟨fun v hv => eval_of_known hst hv, fun name hname => find?_labels_of_deferred hname, ?_, ?_⟩
  · intro hknown name hname
    have hfirst := find?_labels_of_deferred hname
    -- The name that is waited for is a label without a value.
    have hsome := hknown name (List.mem_of_find?_eq_some hfirst)
    have hnone := List.find?_some hfirst
    simp only [Option.isNone_iff_eq_none] at hnone
    rw [hnone] at hsome
    simp at hsome
  · intro parts h
    exact ⟨labels_of_build h, fun fault hfault => eval_of_fault (wellFormed_of_build h) hst hfault⟩

namespace Sample

/-- `a / b + c / a` -/
def ratios : List Part :=
  [.value (.label "a"), .operator .divide, .value (.label "b"), .operator .plus,
    .value (.label "c"), .operator .divide, .value (.label "a")]

/-- The same in postfix order. -/
def quotients : Expr :=
  ⟨[.label "a", .label "b", .binary .divide, .label "c", .label "a", .binary .divide, .binary .plus]⟩

/-- Only `a` is known, and it is a zero divisor. -/
def early : SymbolSource := fun name => if name = "a" then some 0 else none

def late : SymbolSource := fun name =>
  if name = "a" then some 0 else if name = "b" then some 2 else if name = "c" then some 7 else none

theorem early_within : early.Within late := by
  intro name v h
  simp only [early, Option.ite_none_right_eq_some] at h
  rw [late, if_pos h.1, h.2]

end Sample

/-- Faults need not stay where an operator stands in the place of a value, as in `x / 0 + (+)`: the
    missing operands are noticed only if the division is excused. -/
example :
    let e : Expr := ⟨[.label "x", .number 0, .binary .divide, .binary .plus, .binary .plus]⟩
    e.eval (fun _ => none) 0 = .error .malformed ∧
      e.eval (fun _ => some 1) 0 = .error .divisionByZero :=
  ⟨rfl, rfl⟩

/-- The sum waits for `b`, and the division by zero behind it is excused until all names are
    known. -/
theorem build_eval_stable_ratios :
    build Sample.ratios = some Sample.quotients ∧ Sample.early.Within Sample.late ∧
      Sample.quotients.eval Sample.early 0 = .ok (.deferred "b") ∧
      (Sample.ratios.filterMap Part.label?).find? (fun label => (Sample.early label).isNone) =
        some "b" ∧
      Sample.quotients.eval Sample.late 0 = .error .divisionByZero ∧
      ∀ name, Sample.quotients.eval Sample.late 0 ≠ .ok (.deferred name) := by
  have hbuild : build Sample.ratios = some Sample.quotients := by decide
  have hearly : Sample.quotients.eval Sample.early 0 = .ok (.deferred "b") := by rfl
  obtain ⟨_, hwaits, hknown, hbuilt⟩ := build_eval_stable Sample.quotients Sample.early_within 0
  obtain ⟨hlabels, _⟩ := hbuilt Sample.ratios hbuild
  refine ⟨hbuild, Sample.early_within, hearly, ?_, by rfl, hknown (by decide)⟩
  rw [← hlabels]
  exact hwaits "b" hearly

end CartScript.Expr
