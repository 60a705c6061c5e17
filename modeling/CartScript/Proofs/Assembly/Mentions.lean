import CartScript.Proofs.Assembly.Origins

/-!
# Where names are mentioned

A walk notes for every name the first statement that mentions it, in whatever expression and whether
or not the name has a value there.  So at the end of the walk the first use of a name is where the
program mentions it first, and that is the place which is told with an undefined symbol.
-/

namespace CartScript

/-! ## Mentions -/

/-- Whether an expression of a statement mentions a name. -/
def Statement.mentions (statement : Statement) (name : String) : Bool :=
  (statement.exprs.flatMap Expr.labels).contains name

theorem Statement.mentions_iff {statement : Statement} {name : String} :
    statement.mentions name = true ↔ ∃ e ∈ statement.exprs, name ∈ e.labels := by
  rw [mentions, List.contains_iff_mem, List.mem_flatMap]

/-- The first statement that mentions a name. -/
def Program.firstMention? (program : Program) (name : String) : Option (Located Statement) :=
  program.find? fun statement => statement.value.mentions name

theorem Program.exists_firstMention {program : Program} {statement : Located Statement}
    (h : statement ∈ program) {e : Expr} (he : e ∈ statement.value.exprs) {name : String}
    (hname : name ∈ e.labels) : ∃ first, program.firstMention? name = some first := by
  rw [← Option.isSome_iff_exists, firstMention?, List.find?_isSome]
  exact ⟨statement, h, Statement.mentions_iff.2 ⟨e, he, hname⟩⟩

/-! ## First uses -/

theorem Symbols.firstUse?_noteUses (s : Symbols) (statement : Located Statement) (name : String) :
    (s.noteUses statement).firstUse? name = (s.firstUse? name).or
      (if statement.value.mentions name = true then some statement.position else none) := by
  rw [noteUses, firstUse?_foldl_noteUse]
  simp only [Statement.mentions, List.contains_iff_mem]

namespace Assembly

namespace Walk

variable (registry : Registry)

theorem firstUses_declare (w : Walk) (position : Position) (name : String) (value : Int64) :
    (w.declare position name value).symbols.firstUses = w.symbols.firstUses := by
  unfold declare
  split
  · rename_i hdeclare
    exact Symbols.firstUses_of_declare hdeclare
  · rfl

theorem firstUses_name (w : Walk) (statement : Located Statement) :
    (w.name statement).symbols.firstUses = w.symbols.firstUses := by
  simp only [name]
  split
  · apply firstUses_declare
  · split
    · apply firstUses_declare
    · rfl
    · rfl
  · rfl

/-- Passing a statement notes what it mentions. -/
theorem firstUse?_pass (w : Walk) (statement : Located Statement) (name : String) :
    (w.pass registry statement).symbols.firstUse? name = (w.symbols.firstUse? name).or
      (if statement.value.mentions name = true then some statement.position else none) := by
  rw [pass, move_symbols, Symbols.firstUse?, enter, firstUses_name, ← Symbols.firstUse?_noteUses]
  rfl

/-- Passing a program notes what it mentions first. -/
theorem firstUse?_passAll (program : Program) (w : Walk) (name : String) :
    (w.passAll registry program).symbols.firstUse? name = (w.symbols.firstUse? name).or
      ((program.firstMention? name).map Located.position) := by
  induction program generalizing w with
  | nil => simp [passAll, Program.firstMention?]
  | cons statement program ih =>
    rw [passAll_cons, ih, firstUse?_pass, Option.or_assoc]
    congr 1
    by_cases hmentions : statement.value.mentions name = true
    · simp [Program.firstMention?, hmentions]
    · simp [Program.firstMention?, hmentions]

end Walk

/-- The first use of a name is where the program mentions it first. -/
theorem Course.firstUse?_along (span? : Passage → Option Span) (program : Program)
    (context : Context) (image : Image) (name : String) :
    (along span? program context image).symbols.firstUse? name =
      (program.firstMention? name).map Located.position := by
  have hwalk := Walk.firstUse?_passAll context.registry program (Walk.start context image {}) name
  -- The walk starts without any use, and settling constants adds none.
  rw [Symbols.firstUse?, ← Symbols.firstUses_settle] at hwalk
  exact hwalk.trans (Option.none_or ..)

end Assembly

theorem Engine.firstUse?_course (engine : Engine) (program : Program) (context : Assembly.Context)
    (image : Image) (name : String) :
    (engine.course program context image).symbols.firstUse? name =
      (program.firstMention? name).map Located.position := by
  cases engine with
  | twoPass | onePass => apply Assembly.Course.firstUse?_along

/-! ## Reports -/

/-- The faults that an assembly may have, in view of names: an undefined symbol is one that the
    program mentions, and the place told with it is that of the first mention. -/
def AssembleFault.Traced (program : Program) : AssembleFault → Prop
  | .unresolvedSymbol name firstUse =>
    ∃ first, program.firstMention? name = some first ∧ firstUse = some first.position
  | .eval fault => ∀ name, fault ≠ .unresolved name
  | _ => True

namespace AssembleFault

variable {program : Program}

theorem Plain.traced {f : AssembleFault} (h : f.Plain) : f.Traced program := by
  cases f with
  | unresolvedSymbol | eval => exact h.elim
  | _ => trivial

end AssembleFault

namespace Layout

variable {program : Program}

theorem traced_ofArg (code : Code) (param : Param) (arg : Arg) :
    (ofArg code param arg).FailsOnly (AssembleFault.Traced program) := by
  simp only [ofArg]
  split
  · exact .ok _
  · exact .ok _
  · exact .ok _
  · exact .ok _
  · exact .ok _
  · split
    · exact .ok _
    · rename_i fault hfault
      exact .error (Encoding.failsOnly_text _ _ fault hfault).traced
  · exact .ite (fun _ => .ok _) (fun _ => .error trivial)
  · exact .ite (fun _ => .ok _) (fun _ => .error trivial)
  · exact .error trivial

theorem traced_ofArgs (code : Code) (pairs : List (Param × Arg)) :
    (ofArgs code pairs).FailsOnly (AssembleFault.Traced program) := by
  induction pairs with
  | nil => exact .ok _
  | cons pair pairs ih =>
    simp only [ofArgs]
    split
    · rename_i fault hfault
      exact .error (traced_ofArg code pair.1 pair.2 fault hfault)
    · exact ih.map _

/-- Arguments that do not fit have nothing to do with names. -/
theorem traced_ofStatement (statement : Statement) (size : Nat) (registry : Registry) :
    (ofStatement statement size registry).FailsOnly (AssembleFault.Traced program) := by
  cases statement with
  | code index args =>
    simp only [ofStatement]
    split
    · exact .error trivial
    · exact (traced_ofArgs _ _).map _
  | _ => exact .ok _

end Layout

namespace Engine

/-- An undefined symbol is mentioned by the program, and its report tells where that is so first. -/
theorem traced_events (engine : Engine) (program : Program) (context : Assembly.Context)
    (image : Image) :
    Event.Only (AssembleFault.Traced program) (engine.events program context image) := by
  refine only_events (fun _ hf => hf.traced) fun st hst => ⟨fun e he => ⟨?_, fun here => ?_⟩, ?_⟩
  · intro s here fault hfault
    exact Expr.ne_unresolved_of_eval hfault
  · intro fault hfault
    rcases Symbols.fault_of_resolve hfault with ⟨name, hname, rfl⟩ | ⟨f, hf, rfl⟩
    · obtain ⟨first, hfirst⟩ := Program.exists_firstMention hst he hname
      refine ⟨first, hfirst, ?_⟩
      rw [firstUse?_course, hfirst, Option.map_some]
    · exact hf
  · exact fun size => Layout.traced_ofStatement st.value size context.registry

end Engine

end CartScript
