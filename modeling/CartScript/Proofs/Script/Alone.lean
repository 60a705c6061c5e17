import CartScript.Proofs.Listing.Spelling
import CartScript.Proofs.Token.Written

/-!
# Texts on their own

A text without a script around it, read token by token, as an expression or as an argument.  What it
is read as follows from the tokens that it spells.
-/

namespace CartScript

/-! ## Tokens -/

namespace Lexer

/-- The end of a text ends a word. -/
theorem endsWord_nil : EndsWord [] := fun _ hb => by simp at hb

/-- What comes of reading a text token by token. -/
def readings (text : String) : List Reading :=
  (TextStream.ofBytes "" (Utf8.encode text)).rounds.map TextStream.Round.outcome

theorem Spelled.spells {text : String} {word : List Token} (h : Spelled text word) :
    Spells (Utf8.encode text) word := by
  have hspells := h [] [] endsWord_nil .done
  rwa [List.append_nil, List.append_nil] at hspells

/-- A text is read as the tokens that it spells. -/
theorem readings_of_spelled {text : String} {word : List Token} (h : Spelled text word) :
    readings text = word.map .ok ++ [.ok .fileEnd] :=
  h.spells.rounds ""

end Lexer

/-! ## Expressions and arguments -/

namespace Parsing

/-- Something that nothing follows on its line. -/
def sole {α : Type} (limit : Nat) (p : Parsing α) : Parsing α := do
  let a ← p
  lineEnd limit
  return a

variable {word : List Token} {limit : Nat} {α : Type} {p : Parsing α} {state : ParseState}
  {text : String} {a : α}

theorem makes_sole (hlimit : 1 ≤ limit) (h : Makes (Supply.Ahead word) p a [] (Supply.Ahead [])) :
    Makes (Supply.Ahead word) (sole limit p) a [] (Supply.Faces []) := by
  have hline : Makes (Supply.Ahead []) (lineEnd limit) () [] (Supply.Faces []) :=
    (makes_peek hlimit []).bind (Makes.pure _ ())
  exact h.bind <| hline.bind <| Makes.pure _ _

/-- A text from its start. -/
theorem ahead_start (h : Lexer.Spelled text word) :
    (({ name := "", content := Utf8.encode text } : Script).start []).supply.Ahead word :=
  ⟨rfl, rfl, none, .ofBytes "" (Utf8.encode text), rfl, .inl ⟨rfl, h.spells⟩⟩

/-- What a text is read as, if nothing follows it. -/
theorem run_sole (hlimit : 1 ≤ limit) (hword : Lexer.Spelled text word)
    (h : Makes (Supply.Ahead word) p a [] (Supply.Ahead [])) :
    ∃ state, sole limit p (({ name := "", content := Utf8.encode text } : Script).start []) =
      .ok a state := by
  obtain ⟨supply, new, -, hrun, -⟩ := makes_sole hlimit h _ rfl (ahead_start hword)
  exact ⟨_, hrun⟩

theorem bind_of_error {β : Type} {next : ParseState} {fault : ParseFault}
    (h : p state = .error fault next) (f : α → Parsing β) :
    (p >>= f) state = .error fault next := by
  show EStateM.bind p f state = _
  rw [EStateM.bind, h]

/-- A fault in place of the first token. -/
theorem sole_expr_of_peek (hlimit : 1 ≤ limit) {fault : LexFault}
    (h : state.supply.peek.1 = .error fault) :
    ∃ next, sole limit (expr limit) state = .error (.lex fault) next := by
  obtain ⟨rounds, rfl⟩ := Nat.exists_eq_add_of_le' hlimit
  have hraw : peekRaw state = .error (.lex fault) { state with supply := state.supply.peek.2 } := by
    simp only [peekRaw]
    split
    · rename_i token supply heq
      rw [heq] at h
      simp at h
    · rename_i found supply heq
      rw [heq] at h ⊢
      rw [Except.error.inj h]
  have hpeek : peek (rounds + 1) state = _ := bind_of_error hraw _
  have hexpr : expr (rounds + 1) state = _ := bind_of_error hpeek _
  exact ⟨_, bind_of_error hexpr _⟩

end Parsing

namespace Expr

/-- The expression that a text is read as, if it is one. -/
def ofText? (text : String) : Option Expr :=
  match Parsing.sole ({} : Environment).limit (Parsing.expr ({} : Environment).limit)
      (({ name := "", content := Utf8.encode text } : Script).start []) with
  | .ok e _ => some e
  | .error _ _ => none

/-- What `ofText?` makes of the text of an expression. -/
theorem ofText?_of_spelled {text : String} {word : List Token} {e : Expr}
    (h : Lexer.Spelled text word) (he : Parsing.IsExpr ({} : Environment).limit word e) :
    ofText? text = some e := by
  have hread := he.reads [] (by simp [Parsing.EndsExpr])
  rw [List.append_nil] at hread
  have hlimit : 1 ≤ ({} : Environment).limit := by decide
  obtain ⟨state, hrun⟩ := Parsing.run_sole hlimit h hread
  rw [ofText?, hrun]

end Expr

namespace Arg

/-- The argument that a text is read as, if it is one and no part of it is longer than a limit. -/
def ofText? (limit : Nat) (text : String) : Option Arg :=
  match Parsing.sole limit (Parsing.arg limit)
      (({ name := "", content := Utf8.encode text } : Script).start []) with
  | .ok a _ => some a
  | .error _ _ => none

theorem ofText?_of_spelled {limit : Nat} (hlimit : 1 ≤ limit) {text : String} {word : List Token}
    {a : Arg} (h : Lexer.Spelled text word) (ha : Parsing.IsArg limit word a) :
    ofText? limit text = some a := by
  have hread := ha.reads [] (by simp [Parsing.EndsExpr])
  rw [List.append_nil] at hread
  obtain ⟨state, hrun⟩ := Parsing.run_sole hlimit h hread
  rw [ofText?, hrun]

end Arg

end CartScript
