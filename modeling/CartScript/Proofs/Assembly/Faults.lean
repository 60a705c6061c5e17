import CartScript.Proofs.Assembly.Footprint
import CartScript.Proofs.Assembly.Origins

/-!
# What can go wrong in a sound program

The statements of a program that was read from a script have been checked.  So an assembly finds
nothing to complain of in the form of expressions, codes and arguments; what is left are the *ordinary*
faults.  An undefined symbol is always reported with the same words: they tell where it was used
first.
-/

namespace CartScript

/-! ## Ordinary faults -/

/-- The faults that a sound program may have.  An undefined symbol is reported with the place where it
    is used first. -/
def AssembleFault.Ordinary (symbols : Symbols) : AssembleFault → Prop
  | .unresolvedSymbol name firstUse => firstUse = symbols.firstUse? name
  | .eval fault => fault = .divisionByZero
  | .noCode _ | .wrongArgument _ _ => False
  | _ => True

theorem AssembleFault.Plain.ordinary {symbols : Symbols} {f : AssembleFault} (h : f.Plain) :
    f.Ordinary symbols := by
  cases f with
  | unresolvedSymbol | eval | noCode | wrongArgument => exact h.elim
  | _ => trivial

/-- Events none of which is a fault but for ordinary ones. -/
abbrev Event.Ordinary (symbols : Symbols) (events : List Event) : Prop :=
  Event.Only (AssembleFault.Ordinary symbols) events

/-! ## Statements -/

/-- The value of a well-formed expression is missing because of a division by zero, or because a
    symbol is undefined. -/
theorem Expr.WellFormed.failsOnly {e : Expr} (he : e.WellFormed) (final : Symbols) :
    e.FailsOnly (AssembleFault.Ordinary final) final where
  eval _ _ _ h := he.fault_eq h
  resolve here := by
    unfold Symbols.resolve Expr.resolve
    rcases he.eval_cases final.source here with ⟨v, hv⟩ | ⟨name, hname⟩ | hfault
    · rw [hv]
      exact .ok v
    · rw [hname]
      exact .error rfl
    · rw [hfault]
      exact .error rfl

/-- The arguments of a sound statement fit, and its expressions are well formed. -/
theorem Statement.Sound.failsOnly {registry : Registry} (hr : registry.WellFormed)
    {statement : Statement} (hs : statement.Sound registry) (final : Symbols) :
    statement.FailsOnly (AssembleFault.Ordinary final) registry final where
  exprs e he := (hs.exprs e he).failsOnly final
  layout size := by
    cases statement with
    | code index args =>
      obtain ⟨hargs, code, hat, hcheck⟩ := hs.code index args rfl
      obtain ⟨_, _, hl, _⟩ :=
        Layout.ofStatement_code hat (hr.codes index code hat).1 hcheck hargs hs.exprs size
      rw [hl]
      exact .ok _
    | _ => exact .ok _

/-! ## Assemblies -/

/-- The data of a block in free space is that of a sound field. -/
theorem Assembly.Course.inlined_of_mem_blocks {program : Program} {context : Context} {image : Image}
    (hr : context.registry.WellFormed) (hs : ∀ st ∈ program, st.value.Sound context.registry)
    {b : InlineBlock} (hb : b ∈ (along (fun p => p.slot.span) program context image).blocks) :
    b.data.Inlined b.element := by
  have hsound := sound_along (fun p => p.slot.span) image hr hs
  obtain ⟨f, hf, hsource, -⟩ := (blocksFor (fun p => p.slot.span) program context image).1.field hb
  obtain ⟨item, hitem, hf⟩ := List.mem_flatMap.1 hf
  obtain ⟨piece, hp, hf⟩ := List.mem_flatMap.1 hf
  have hpiece := (hsound.items item hitem).pieceOf (Option.mem_toList.1 hp)
  exact ((hpiece.sound f hf).inline _ _ hsource).1

/-- All faults that an engine reports of a sound program are ordinary. -/
theorem Engine.ordinary_events {program : Program} {context : Assembly.Context} (image : Image)
    (hr : context.registry.WellFormed) (hs : ∀ st ∈ program, st.value.Sound context.registry)
    (engine : Engine) :
    Event.Ordinary (engine.course program context image).symbols
      (engine.events program context image) :=
  only_events (fun _ hf => hf.ordinary) fun st hst => (hs st hst).failsOnly hr _

end CartScript
