import CartScript.Proofs.Symbols.Settling

/-!
# Names in expressions

A value of an expression rests on a value for each name in it.  If the value is missing, then because
of one of these names, and the fault tells where that name was used first.
-/

namespace CartScript

/-! ## Names and values -/

namespace Expr

namespace Machine

variable {s : SymbolSource} {here : UInt32}

variable {m : Machine} {nodes : List Node} {fault : EvalFault} {node : Node}

/-- A missing name is no fault of a step. -/
theorem ne_unresolved_of_step (h : m.step s here node = .error fault) (name : String) :
    fault ≠ .unresolved name := by
  rintro rfl
  cases node with
  | number v | here => simp [step] at h
  | label other =>
    simp only [step] at h
    split at h <;> simp at h
  | unary op =>
    simp only [step] at h
    split at h
    · rename_i v _ _
      have hfault : applyUnary op v = .error (.unresolved name) := by
        cases hop : applyUnary op v <;> simp_all [Except.map]
      cases op <;> simp [applyUnary] at hfault
    · simp at h
  | binary op =>
    simp only [step] at h
    split at h
    · rename_i b a _ _
      have hfault : applyBinary op a b m.missing.isSome = .error (.unresolved name) := by
        cases hop : applyBinary op a b m.missing.isSome <;> simp_all [Except.map]
      -- Only a division can fail where an operator has a meaning.
      have hdivide (f : Int64 → Int64 → Int64) :
          divide f a b m.missing.isSome ≠ .error (.unresolved name) := by
        unfold divide
        split
        · split <;> simp
        · simp
      cases op <;> simp [applyBinary, hdivide] at hfault
    · simp at h

theorem ne_unresolved_of_run (h : run s here nodes m = .error fault) (name : String) :
    fault ≠ .unresolved name := by
  induction nodes generalizing m with
  | nil => simp [run] at h
  | cons node nodes ih =>
    simp only [run] at h
    split at h
    · exact ih h
    · rename_i hstep
      rw [← Except.error.inj h]
      exact ne_unresolved_of_step hstep name

end Machine

variable {s : SymbolSource} {here : UInt32} {e : Expr} {name : String}

/-- An expression with a value mentions no name without one. -/
theorem exists_value_of_known {v : Int64} (h : e.eval s here = .ok (.known v))
    (hname : name ∈ e.labels) : ∃ u, s name = some u := by
  unfold eval at h
  split at h
  · rename_i last hlast
    have hnone := Machine.missing_of_result h
    rw [Machine.missing_of_run_eq hlast, Option.or_eq_none_iff] at hnone
    exact Option.ne_none_iff_exists'.1 (by simpa using List.find?_eq_none.1 hnone.2 name hname)
  · simp at h

/-- An expression that waits, waits for a name that it mentions. -/
theorem of_deferred (h : e.eval s here = .ok (.deferred name)) : name ∈ e.labels ∧ s name = none := by
  have hfirst := find?_labels_of_deferred h
  exact ⟨List.mem_of_find?_eq_some hfirst, by simpa using List.find?_some hfirst⟩

/-- A missing name is no fault of an evaluation. -/
theorem ne_unresolved_of_eval {fault : EvalFault} (h : e.eval s here = .error fault) (name : String) :
    fault ≠ .unresolved name := by
  unfold eval at h
  split at h
  · unfold Machine.result at h
    split at h
    · simp at h
    · simp at h
    · rw [← Except.error.inj h]
      simp
  · rename_i hrun
    rw [← Except.error.inj h]
    exact Machine.ne_unresolved_of_run hrun name

end Expr

namespace Symbols

/-- All names that an expression mentions have values. -/
def Knows (s : Symbols) (e : Expr) : Prop := ∀ name ∈ e.labels, ∃ v, s.source name = some v

variable {s t : Symbols} {e : Expr} {here : UInt32}

/-- What was known early is known in the end. -/
theorem knows_of_eval (hst : s.source.Within t.source) {v : Int64}
    (h : e.eval s.source here = .ok (.known v)) : t.Knows e := by
  intro name hname
  obtain ⟨u, hu⟩ := Expr.exists_value_of_known h hname
  exact ⟨u, hst name u hu⟩

theorem knows_of_resolve {v : Int64} (h : s.resolve e here = .ok v) : s.Knows e := by
  unfold resolve Expr.resolve at h
  split at h
  · rename_i hknown
    exact knows_of_eval (.refl _) hknown
  · simp [Except.mapError] at h
  · simp [Except.mapError] at h

/-- A value is missing because of a name that the expression mentions, with the place where that name
    was used first, or for a reason that has nothing to do with names. -/
theorem fault_of_resolve {fault : AssembleFault} (h : s.resolve e here = .error fault) :
    (∃ name ∈ e.labels, fault = .unresolvedSymbol name (s.firstUse? name)) ∨
      ∃ f, (∀ name, f ≠ .unresolved name) ∧ fault = .eval f := by
  unfold resolve Expr.resolve at h
  split at h
  · simp [Except.mapError] at h
  · rename_i name hdeferred
    left
    simp only [Except.mapError, evalFault, Except.error.injEq] at h
    exact ⟨name, (Expr.of_deferred hdeferred).1, h.symm⟩
  · rename_i f hfault
    right
    have hne := Expr.ne_unresolved_of_eval hfault
    refine ⟨f, hne, ?_⟩
    cases f with
    | unresolved name => exact absurd rfl (hne name)
    | divisionByZero | malformed =>
      simp only [Except.mapError, evalFault, Except.error.injEq] at h
      exact h.symm

/-! ## First uses -/

theorem firstUse?_noteUse (position : Position) (s : Symbols) (name other : String) :
    (s.noteUse position name).firstUse? other =
      (s.firstUse? other).or (if other = name then some position else none) := by
  unfold noteUse
  split
  · -- The name was used before, and its first use stays.
    rename_i hused
    by_cases heq : other = name
    · obtain ⟨first, hfirst⟩ := Option.isSome_iff_exists.1 hused
      have hfirst' : s.firstUse? other = some first := heq ▸ hfirst
      rw [hfirst', Option.some_or]
    · rw [if_neg heq, Option.or_none]
  · rename_i hnew
    have hnone : s.firstUse? name = none := by
      simpa [Dictionary.contains, firstUse?] using hnew
    show (s.firstUses.put name position).find? other = _
    rw [Dictionary.find?_put]
    by_cases heq : other = name
    · rw [if_pos heq, if_pos heq, heq, hnone, Option.none_or]
    · rw [if_neg heq, if_neg heq, Option.or_none]
      rfl

/-- Where names are used first. -/
theorem firstUse?_foldl_noteUse (position : Position) (names : List String) (s : Symbols)
    (other : String) :
    (names.foldl (noteUse position) s).firstUse? other =
      (s.firstUse? other).or (if other ∈ names then some position else none) := by
  induction names generalizing s with
  | nil => simp
  | cons name names ih =>
    rw [List.foldl_cons, ih, firstUse?_noteUse, Option.or_assoc]
    congr 1
    by_cases heq : other = name
    · simp [heq]
    · simp [heq]

theorem firstUses_of_declare {name : String} {value : Int64} (h : s.declare name value = .ok t) :
    t.firstUses = s.firstUses := by
  unfold declare at h
  split at h
  · simp at h
  · rw [← Except.ok.inj h]

theorem Round.firstUses_step (r : Round) (c : WaitingConstant) :
    (r.step c).symbols.firstUses = r.symbols.firstUses := by
  unfold Round.step
  split
  · split
    · rename_i hdeclare
      exact firstUses_of_declare hdeclare
    · rfl
  · rfl
  · rfl

theorem firstUses_round (s : Symbols) (waiting : List WaitingConstant)
    (complaints : List Complaint) : (s.round waiting complaints).symbols.firstUses = s.firstUses := by
  have hfold (r : Round) : (waiting.foldl Round.step r).symbols.firstUses = r.symbols.firstUses := by
    induction waiting generalizing r with
    | nil => rfl
    | cons c waiting ih => exact (ih (r.step c)).trans (r.firstUses_step c)
  exact hfold { symbols := s, complaints }

theorem firstUses_settleFrom (s : Symbols) (waiting : List WaitingConstant)
    (complaints : List Complaint) :
    (s.settleFrom waiting complaints).1.firstUses = s.firstUses := by
  fun_induction settleFrom s waiting complaints with
  | case1 s waiting complaints r _ ih => exact ih.trans (firstUses_round s waiting complaints)
  | case2 s waiting complaints r _ => exact firstUses_round s waiting complaints

/-- Settling constants does not change where names are used first. -/
theorem firstUses_settle (s : Symbols) (waiting : List WaitingConstant) :
    (s.settle waiting).1.firstUses = s.firstUses :=
  firstUses_settleFrom s waiting []

end Symbols

/-! ## Faults -/

/-- The faults of an expression, met on the way or in the end, are as told. -/
structure Expr.FailsOnly (P : AssembleFault → Prop) (final : Symbols) (e : Expr) : Prop where
  eval : ∀ s here fault, e.eval s here = .error fault → P (.eval fault)
  resolve : ∀ here, (final.resolve e here).FailsOnly P

namespace Symbols

variable {P : AssembleFault → Prop} {s final : Symbols} {waiting : List WaitingConstant}
  {complaints : List Complaint}

/-- What a round over constants promises of its faults: those it has complained of are as told, and
    so are those of the constants that wait. -/
structure Round.FailsOnly (P : AssembleFault → Prop) (final : Symbols) (r : Round) : Prop where
  waiting : ∀ c ∈ r.waiting, c.value.FailsOnly P final
  complaints : ∀ c ∈ r.complaints, P c.value

theorem failsOnly_attempt (hduplicate : ∀ name, P (.duplicateSymbol name))
    {c : WaitingConstant} (hc : c.value.FailsOnly P final) (s : Symbols) :
    (s.attempt c).FailsOnly P := by
  unfold attempt
  split
  · refine Except.FailsOnly.map ?_ some
    exact .ite (fun _ => .error (hduplicate c.name)) (fun _ => .ok _)
  · exact .ok _
  · rename_i fault hfault
    exact .error (hc.eval _ _ fault hfault)

theorem Round.FailsOnly.step (hduplicate : ∀ name, P (.duplicateSymbol name))
    {r : Round} (h : r.FailsOnly P final) {c : WaitingConstant} (hc : c.value.FailsOnly P final) :
    (r.step c).FailsOnly P final := by
  rw [Round.step_eq]
  split
  · exact ⟨h.waiting, h.complaints⟩
  · exact ⟨List.forall_mem_append.2 ⟨h.waiting, List.forall_mem_singleton.2 hc⟩, h.complaints⟩
  · rename_i fault hfault
    have hP := failsOnly_attempt hduplicate hc r.symbols fault hfault
    exact ⟨h.waiting, List.forall_mem_append.2 ⟨h.complaints, List.forall_mem_singleton.2 hP⟩⟩

theorem Round.FailsOnly.foldl (hduplicate : ∀ name, P (.duplicateSymbol name))
    {r : Round} (h : r.FailsOnly P final) (hw : ∀ c ∈ waiting, c.value.FailsOnly P final) :
    (waiting.foldl Round.step r).FailsOnly P final := by
  induction waiting generalizing r with
  | nil => exact h
  | cons c waiting ih =>
    obtain ⟨hc, hrest⟩ := List.forall_mem_cons.1 hw
    exact ih (h.step hduplicate hc) hrest

theorem failsOnly_settleFrom (hduplicate : ∀ name, P (.duplicateSymbol name))
    (hw : ∀ c ∈ waiting, c.value.FailsOnly P (s.settleFrom waiting complaints).1)
    (hc : ∀ c ∈ complaints, P c.value) :
    ∀ c ∈ (s.settleFrom waiting complaints).2, P c.value := by
  fun_induction settleFrom s waiting complaints with
  | case1 s waiting complaints r _ ih =>
    have hround : r.FailsOnly P (r.symbols.settleFrom r.waiting r.complaints).1 :=
      Round.FailsOnly.foldl hduplicate ⟨by simp, hc⟩ hw
    exact ih hround.waiting hround.complaints
  | case2 s waiting complaints r _ =>
    have hround : r.FailsOnly P r.symbols := Round.FailsOnly.foldl hduplicate ⟨by simp, hc⟩ hw
    refine List.forall_mem_append.2 ⟨hround.complaints, fun d hd => ?_⟩
    -- What still waits is resolved once more, to find out why.
    obtain ⟨c, hmem, hcomplaint⟩ := List.mem_filterMap.1 hd
    unfold complaint? at hcomplaint
    split at hcomplaint
    · simp at hcomplaint
    · rename_i fault hresolve
      rw [← Option.some.inj hcomplaint]
      exact (hround.waiting c hmem).resolve c.here fault hresolve

/-- The complaints about constants that wait are faults of their expressions, or names that are
    declared twice. -/
theorem failsOnly_settle (hduplicate : ∀ name, P (.duplicateSymbol name))
    (hw : ∀ c ∈ waiting, c.value.FailsOnly P (s.settle waiting).1) :
    ∀ c ∈ (s.settle waiting).2, P c.value :=
  failsOnly_settleFrom hduplicate hw (by simp)

end Symbols

end CartScript
