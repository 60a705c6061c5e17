import CartScript.Proofs.Token.Spelling
import CartScript.Script.Parse

/-!
# Scripts without macros

What comes of reading a script of which the tokens are known and in which no macro is defined.
`Parsing.Makes` says that a computation reads some tokens, has a result and adds statements; there is
a lemma for every way to put computations together, and from them one for each kind of statement.
-/

namespace CartScript

/-! ## The tokens ahead -/

namespace Supply

/-- Only the script itself is read, and it was looked at. -/
def Faces (tokens : List Token) (s : Supply) : Prop :=
  s.stack = [] ∧ s.lineEnded = false ∧ ∃ route text, s.root = .file route text ∧ text.Faces tokens

/-- Only the script itself is read, and it has some tokens ahead. -/
def Ahead (tokens : List Token) (s : Supply) : Prop :=
  s.stack = [] ∧ s.lineEnded = false ∧ ∃ route text, s.root = .file route text ∧ text.Ahead tokens

variable {tokens : List Token} {s : Supply}

theorem Faces.ahead (h : s.Faces tokens) : s.Ahead tokens := by
  obtain ⟨hstack, hline, route, text, hroot, hfaces⟩ := h
  exact ⟨hstack, hline, route, text, hroot, .inr hfaces⟩

theorem Ahead.peek (h : s.Ahead tokens) :
    s.peek.1 = .ok (tokens.headD .fileEnd) ∧ s.peek.2.Faces tokens := by
  obtain ⟨hstack, hline, route, text, hroot, hahead⟩ := h
  obtain ⟨htoken, hfaces⟩ := hahead.peek
  simp only [Supply.peek, hline, Bool.false_eq_true, if_false, hstack, peekStack, hroot, Frame.peek]
  exact ⟨htoken, rfl, rfl, route, text.peek.2, rfl, hfaces⟩

theorem Faces.eat {token : Token} (h : s.Faces (token :: tokens)) : s.eat.Ahead tokens := by
  obtain ⟨hstack, hline, route, text, hroot, hfaces⟩ := h
  simp only [Supply.eat, hline, Bool.false_eq_true, if_false, mapTop, hstack, hroot, Frame.eat]
  exact ⟨rfl, rfl, route, text.eat, rfl, hfaces.eat⟩

end Supply

namespace Parsing

/-! ## Computations -/

/-- A computation that, where no macro is defined, has a certain result and adds certain statements,
    and changes nothing else but the tokens ahead. -/
def Makes {α : Type} (before : Supply → Prop) (p : Parsing α) (a : α) (made : List Statement)
    (after : Supply → Prop) : Prop :=
  ∀ state : ParseState, state.macros = {} → before state.supply →
    ∃ supply, ∃ new : Array (Located Statement), new.toList.map Located.value = made ∧
      p state = .ok a { state with supply, statements := state.statements ++ new } ∧ after supply

section Rules

variable {α β : Type} {P Q R : Supply → Prop} {a : α} {b : β} {xs ys : List Statement}

theorem bind_of_ok {p : Parsing α} {state next : ParseState} (h : p state = .ok a next)
    (f : α → Parsing β) : (p >>= f) state = f a next := by
  show EStateM.bind p f state = _
  rw [EStateM.bind, h]

theorem get_bind (f : ParseState → Parsing β) (state : ParseState) :
    (get >>= f : Parsing β) state = f state state := rfl

theorem Makes.pure (P : Supply → Prop) (a : α) : Makes P (pure a) a [] P := by
  intro state _ hstate
  exact ⟨state.supply, #[], rfl, by simp; rfl, hstate⟩

theorem Makes.bind {p : Parsing α} {f : α → Parsing β} (hp : Makes P p a xs Q)
    (hf : Makes Q (f a) b ys R) : Makes P (p >>= f) b (xs ++ ys) R := by
  intro state hmacros hstate
  obtain ⟨supply, new, hnew, hrun, hsupply⟩ := hp state hmacros hstate
  obtain ⟨supply', new', hnew', hrun', hsupply'⟩ :=
    hf { state with supply, statements := state.statements ++ new } hmacros hsupply
  refine ⟨supply', new ++ new', by simp [hnew, hnew'], ?_, hsupply'⟩
  rw [bind_of_ok hrun, hrun', Array.append_assoc]

theorem Makes.weaken {p : Parsing α} (h : Makes P p a xs Q) {P' Q' : Supply → Prop}
    (hP : ∀ s, P' s → P s) (hQ : ∀ s, Q s → Q' s) : Makes P' p a xs Q' := by
  intro state hmacros hstate
  obtain ⟨supply, new, hnew, hrun, hsupply⟩ := h state hmacros (hP _ hstate)
  exact ⟨supply, new, hnew, hrun, hQ _ hsupply⟩

/-- Where it stands does not matter for what comes of it. -/
theorem Makes.position {f : Position → Parsing β} (h : ∀ place, Makes P (f place) b ys Q) :
    Makes P (position >>= f) b ys Q := by
  intro state hmacros hstate
  exact h state.supply.position state hmacros hstate

theorem makes_emit (P : Supply → Prop) (place : Position) (statement : Statement) :
    Makes P (emit place statement) () [statement] P := by
  intro state _ hstate
  exact ⟨state.supply, #[⟨place, statement⟩], rfl, rfl, hstate⟩

end Rules

variable {tokens : List Token}

theorem makes_eat (token : Token) (tokens : List Token) :
    Makes (Supply.Faces (token :: tokens)) eat () [] (Supply.Ahead tokens) := by
  intro state _ hstate
  refine ⟨state.supply.eat, #[], rfl, ?_, hstate.eat⟩
  simp only [Array.append_empty]
  rfl

variable {limit : Nat} {word : List Token} {e : Expr}

/-- Without macros the next token is the one as written. -/
theorem makes_peek (hlimit : 1 ≤ limit) (tokens : List Token) :
    Makes (Supply.Ahead tokens) (peek limit) (tokens.headD .fileEnd) [] (Supply.Faces tokens) := by
  intro state hmacros hstate
  obtain ⟨htoken, hfaces⟩ := hstate.peek
  obtain ⟨limit, rfl⟩ := Nat.exists_eq_add_of_le' hlimit
  refine ⟨state.supply.peek.2, #[], rfl, ?_, hfaces⟩
  have huse : useOf? { state with supply := state.supply.peek.2 } (tokens.headD .fileEnd) =
      none := by
    unfold useOf?
    split
    · simp only [hmacros]
      split <;> rfl
    · rfl
  have hraw : peekRaw state =
      .ok (tokens.headD .fileEnd) { state with supply := state.supply.peek.2 } := by
    simp only [peekRaw]
    split
    · rename_i token supply heq
      rw [heq] at htoken ⊢
      rw [Except.ok.inj htoken]
    · rename_i fault supply heq
      rw [heq] at htoken
      simp at htoken
  rw [peek, bind_of_ok hraw, get_bind]
  simp only [huse, Array.append_empty]
  rfl

/-! ## Expressions -/

theorem makes_ofBuild {α : Type} (P : Supply → Prop) {x : Except BuildFault α} {a : α}
    (h : x = .ok a) : Makes P (ofBuild x) a [] P := by
  rw [h]
  exact Makes.pure P a

/-- What may follow an expression. -/
def EndsExpr (tokens : List Token) : Prop :=
  tokens.headD .fileEnd ∈
    [.symbol .comma, .symbol .closeParen, .symbol .closeBracket, .lineEnd, .fileEnd]

/-- Tokens with which an expression may start. -/
def startsExpr : Token → Bool
  | .number _ | .name _ | .symbol .minus => true
  | _ => false

theorem offer_of_endsExpr {b : Expr.Builder} (hdepth : b.depth = 0) {tokens : List Token}
    (h : EndsExpr tokens) : offer b (tokens.headD .fileEnd) = .ok none := by
  simp only [EndsExpr, List.mem_cons, List.not_mem_nil, or_false] at h
  -- None of these continues an expression; a closing parenthesis would, if one were open.
  rcases h with h | h | h | h | h <;> rw [h]
  · rfl
  · simp [offer, Expr.Builder.closeParen, hdepth]
  · rfl
  · rfl
  · rfl

section Expressions

variable {limit rounds : Nat} (hlimit : 1 ≤ limit)

include hlimit

theorem makes_exprFrom_cons {b next : Expr.Builder} {token : Token} {e : Expr} {Q : Supply → Prop}
    (hoffer : offer b token = .ok (some next))
    (h : Makes (Supply.Ahead tokens) (exprFrom limit rounds next) e [] Q) :
    Makes (Supply.Ahead (token :: tokens)) (exprFrom limit (rounds + 1) b) e [] Q :=
  (makes_peek hlimit (token :: tokens)).bind <|
    (makes_ofBuild _ hoffer).bind <| (makes_eat token tokens).bind h

theorem makes_exprFrom_end {b : Expr.Builder} (hdepth : b.depth = 0) {e : Expr}
    (hfinish : b.finish = .ok e) (h : EndsExpr tokens) :
    Makes (Supply.Ahead tokens) (exprFrom limit (rounds + 1) b) e [] (Supply.Ahead tokens) :=
  (makes_peek hlimit tokens).bind <|
    (makes_ofBuild _ (offer_of_endsExpr hdepth h)).bind <|
      (makes_ofBuild _ hfinish).weaken (fun _ => Supply.Faces.ahead) fun _ h => h

end Expressions

/-- Tokens that are read as an expression. -/
structure IsExpr (limit : Nat) (word : List Token) (e : Expr) : Prop where
  starts : startsExpr (word.headD .fileEnd) = true
  reads : ∀ rest, EndsExpr rest →
    Makes (Supply.Ahead (word ++ rest)) (expr limit) e [] (Supply.Ahead rest)

section IsExpr

variable {limit : Nat} (hlimit : 3 ≤ limit)

include hlimit

theorem isExpr_number (value : Int64) : IsExpr limit [.number value] (.constant value) := by
  obtain ⟨rounds, rfl⟩ := Nat.exists_eq_add_of_le' hlimit
  refine ⟨rfl, fun rest hrest => ?_⟩
  exact makes_exprFrom_cons (by omega) rfl (makes_exprFrom_end (by omega) rfl rfl hrest)

theorem isExpr_negative (value : Int64) :
    IsExpr limit [.symbol .minus, .number value] ⟨[.number value, .unary .minus]⟩ := by
  obtain ⟨rounds, rfl⟩ := Nat.exists_eq_add_of_le' hlimit
  refine ⟨rfl, fun rest hrest => ?_⟩
  exact makes_exprFrom_cons (by omega) rfl <| makes_exprFrom_cons (by omega) rfl <|
    makes_exprFrom_end (by omega) rfl rfl hrest

theorem isExpr_label {name : String} (hname : name ≠ "CURRENTOFFSET") :
    IsExpr limit [.name name] ⟨[.label name]⟩ := by
  obtain ⟨rounds, rfl⟩ := Nat.exists_eq_add_of_le' hlimit
  refine ⟨rfl, fun rest hrest => ?_⟩
  have hoffer : offer {} (.name name) =
      .ok (some { output := [.label name], afterValue := true }) := by
    rw [offer, if_neg hname]
    rfl
  exact makes_exprFrom_cons (by omega) hoffer (makes_exprFrom_end (by omega) rfl rfl hrest)

end IsExpr

/-! ## Arguments -/

/-- Tokens that are read as an argument. -/
structure IsArg (limit : Nat) (word : List Token) (a : Arg) : Prop where
  nonempty : word ≠ []
  starts : word.headD .fileEnd ≠ .symbol .closeParen
  reads : ∀ rest, EndsExpr rest →
    Makes (Supply.Ahead (word ++ rest)) (arg limit) a [] (Supply.Ahead rest)

theorem IsExpr.nonempty (h : IsExpr limit word e) : word ≠ [] := by
  rintro rfl
  exact absurd h.starts (by decide)

theorem IsExpr.isArg (hlimit : 1 ≤ limit) (h : IsExpr limit word e) :
    IsArg limit word (.expr e) := by
  refine ⟨h.nonempty, fun heq => ?_, fun rest hrest => ?_⟩
  · have hstarts := h.starts
    rw [heq] at hstarts
    exact absurd hstarts (by decide)
  · obtain ⟨token, tokens, rfl⟩ := List.exists_cons_of_ne_nil h.nonempty
    refine (makes_peek hlimit _).bind ?_
    have hread := (h.reads rest hrest).weaken (fun _ => Supply.Faces.ahead) fun _ h => h
    have hstarts := h.starts
    simp only [List.cons_append, List.headD_cons] at hread hstarts ⊢
    -- A number, a name or a minus sign leads to the branch for expressions.
    match token, hstarts with
    | .number _, _ | .name _, _ | .symbol .minus, _ => exact hread.bind (Makes.pure _ _)

theorem isArg_text (hlimit : 1 ≤ limit) (content : String) :
    IsArg limit [.text content] (.text content) :=
  ⟨by simp, by simp, fun _ _ =>
    (makes_peek hlimit _).bind <| (makes_eat _ _).bind <| Makes.pure _ _⟩

/-- Words with commas between them. -/
def commas (words : List (List Token)) : List Token := List.intercalate [.symbol .comma] words

theorem commas_singleton (word : List Token) : commas [word] = word := by
  simp [commas, List.intercalate]

theorem commas_cons_cons (word other : List Token) (words : List (List Token)) :
    commas (word :: other :: words) = word ++ .symbol .comma :: commas (other :: words) := by
  simp [commas, List.intercalate]

theorem headD_commas (hword : word ≠ []) (words : List (List Token)) (rest : List Token) :
    (commas (word :: words) ++ rest).headD .fileEnd = word.headD .fileEnd := by
  obtain ⟨token, tokens, rfl⟩ := List.exists_cons_of_ne_nil hword
  cases words with
  | nil => simp [commas_singleton]
  | cons other words => simp [commas_cons_cons]

/-- A loop that reads values with commas between them up to a closing token, one in each round. -/
structure ListLoop {δ : Type} (one : Parsing δ) (close : Token)
    (loop : Nat → Array δ → Parsing (List δ)) : Prop where
  ends : ∀ rest, EndsExpr (close :: rest)
  last : ∀ {tokens rest : List Token} {a : δ} (rounds : Nat) (items : Array δ),
    Makes (Supply.Ahead tokens) one a [] (Supply.Ahead (close :: rest)) →
    Makes (Supply.Ahead tokens) (loop (rounds + 1) items) (items.push a).toList []
      (Supply.Ahead rest)
  next : ∀ {tokens rest : List Token} {a : δ} {result : List δ} {Q : Supply → Prop} (rounds : Nat)
    (items : Array δ),
    Makes (Supply.Ahead tokens) one a [] (Supply.Ahead (.symbol .comma :: rest)) →
    Makes (Supply.Ahead rest) (loop rounds (items.push a)) result [] Q →
    Makes (Supply.Ahead tokens) (loop (rounds + 1) items) result [] Q

theorem listLoop_itemsFrom (hlimit : 1 ≤ limit) :
    ListLoop (expr limit) (.symbol .closeBracket) (itemsFrom limit) where
  ends _ := by simp [EndsExpr]
  last _ _ hread := hread.bind <| (makes_peek hlimit _).bind <| (makes_eat _ _).bind <|
    Makes.pure _ _
  next _ _ hread hrest := hread.bind <| (makes_peek hlimit _).bind <| (makes_eat _ _).bind hrest

theorem listLoop_argsFrom (hlimit : 1 ≤ limit) :
    ListLoop (arg limit) (.symbol .closeParen) (argsFrom limit) where
  ends _ := by simp [EndsExpr]
  last _ _ hread := hread.bind <| (makes_peek hlimit _).bind <| (makes_eat _ _).bind <|
    Makes.pure _ _
  next _ _ hread hrest := hread.bind <| (makes_peek hlimit _).bind <| (makes_eat _ _).bind hrest

section Lists

variable {γ : Type}

variable {word : γ → List Token} {xs : List γ}

/-- Values, up to the closing token. -/
theorem ListLoop.makes {δ : Type} {one : Parsing δ} {close : Token}
    {loop : Nat → Array δ → Parsing (List δ)} (hloop : ListLoop one close loop) {value : γ → δ}
    {x : γ} (h : ∀ y ∈ x :: xs, ∀ rest, EndsExpr rest →
      Makes (Supply.Ahead (word y ++ rest)) one (value y) [] (Supply.Ahead rest)) {rounds : Nat}
    (hrounds : xs.length + 1 ≤ rounds) (items : Array δ) (rest : List Token) :
    Makes (Supply.Ahead (commas ((x :: xs).map word) ++ close :: rest)) (loop rounds items)
      (items.toList ++ (x :: xs).map value) [] (Supply.Ahead rest) := by
  induction xs generalizing x rounds items with
  | nil =>
    obtain ⟨rounds, rfl⟩ := Nat.exists_eq_add_of_le' hrounds
    have hread := h x (.head _) (close :: rest) (hloop.ends rest)
    have hlast := hloop.last rounds items hread
    rw [Array.toList_push] at hlast
    rw [List.map_cons, List.map_nil, commas_singleton]
    exact hlast
  | cons y xs ih =>
    obtain ⟨rounds, rfl⟩ := Nat.exists_eq_add_of_le' (Nat.le_trans (Nat.le_add_left 1 _) hrounds)
    -- A comma ends the first value, and the others are read in the rounds that are left.
    have hread := h x (.head _)
      (.symbol .comma :: (commas ((y :: xs).map word) ++ close :: rest)) (by simp [EndsExpr])
    have hrest := ih (x := y) (fun z hz => h z (.tail _ hz))
      (by simpa using hrounds) (items.push (value x))
    rw [Array.toList_push, List.append_assoc, List.singleton_append] at hrest
    rw [List.map_cons, List.map_cons, commas_cons_cons, List.append_assoc, List.cons_append]
    exact hloop.next rounds items hread hrest

variable {limit : Nat} (hlimit : 1 ≤ limit)

include hlimit

/-- A list. -/
theorem isArg_list {value : γ → Expr} (hne : xs ≠ [])
    (h : ∀ y ∈ xs, IsExpr limit (word y) (value y)) (hcount : xs.length ≤ limit) :
    IsArg limit (.symbol .openBracket :: (commas (xs.map word) ++ [.symbol .closeBracket]))
      (.list (xs.map value)) := by
  obtain ⟨x, xs, rfl⟩ := List.exists_cons_of_ne_nil hne
  refine ⟨by simp, by simp, fun rest _ => ?_⟩
  have hitems := (listLoop_itemsFrom hlimit).makes (fun y hy => (h y hy).reads) hcount #[] rest
  have hfirst := h x (.head _)
  rw [List.cons_append, List.append_assoc, List.singleton_append]
  refine (makes_peek hlimit _).bind ((makes_eat _ _).bind ((makes_peek hlimit _).bind ?_))
  -- The list is not empty: its first token is that of an expression.
  have hopen : (commas ((x :: xs).map word) ++ .symbol .closeBracket :: rest).headD .fileEnd ≠
      .symbol .closeBracket := by
    rw [List.map_cons, headD_commas hfirst.nonempty]
    intro heq
    have hstarts := hfirst.starts
    rw [heq] at hstarts
    exact absurd hstarts (by decide)
  rw [if_neg hopen]
  refine (hitems.weaken (fun _ => Supply.Faces.ahead) fun _ h => h).bind ?_
  simpa using Makes.pure (Supply.Ahead rest) (Arg.list ((x :: xs).map value))

/-- The arguments of a code. -/
theorem makes_args {value : γ → Arg} (hne : xs ≠ []) (h : ∀ y ∈ xs, IsArg limit (word y) (value y))
    (hcount : xs.length ≤ limit) (rest : List Token) :
    Makes (Supply.Ahead (.symbol .openParen ::
        (commas (xs.map word) ++ .symbol .closeParen :: rest)))
      (args limit) (xs.map value) [] (Supply.Ahead rest) := by
  obtain ⟨x, xs, rfl⟩ := List.exists_cons_of_ne_nil hne
  have hargs := (listLoop_argsFrom hlimit).makes (fun y hy => (h y hy).reads) hcount #[] rest
  have hfirst := h x (.head _)
  refine (makes_peek hlimit _).bind ?_
  rw [if_neg (by simp)]
  refine (makes_eat _ _).bind ((makes_peek hlimit _).bind ?_)
  rw [List.map_cons, headD_commas hfirst.nonempty, if_neg hfirst.starts]
  exact hargs.weaken (fun _ => Supply.Faces.ahead) fun _ h => h

/-- A code without arguments. -/
theorem makes_args_nil (rest : List Token) :
    Makes (Supply.Ahead (.lineEnd :: rest)) (args limit) [] [] (Supply.Ahead (.lineEnd :: rest)) := by
  refine (makes_peek hlimit _).bind ?_
  rw [if_pos (by simp)]
  exact (Makes.pure _ _).weaken (fun _ => Supply.Faces.ahead) fun _ h => h

theorem makes_lineEnd (rest : List Token) :
    Makes (Supply.Ahead (.lineEnd :: rest)) (lineEnd limit) () [] (Supply.Ahead rest) :=
  (makes_peek hlimit _).bind (makes_eat _ _)

end Lists

/-! ## Statements -/

section Statements

variable {env : Environment} (hlimit : 1 ≤ env.limit)

include hlimit

/-- A statement that starts with a name. -/
theorem makes_statement_named {name : String} {rest : List Token} {made : List Statement}
    {Q : Supply → Prop}
    (h : ∀ place, Makes (Supply.Faces (.name name :: rest)) (named env place name) () made Q) :
    Makes (Supply.Ahead (.name name :: rest)) (statement env) true made Q := by
  refine (makes_peek hlimit _).bind (Makes.position fun place => ?_)
  have hread : Makes _ (named env place name >>= fun _ => Pure.pure true) true (made ++ []) Q :=
    (h place).bind (Makes.pure Q true)
  rw [List.append_nil] at hread
  exact hread

/-- The end of a line on its own. -/
theorem makes_statement_lineEnd (rest : List Token) :
    Makes (Supply.Ahead (.lineEnd :: rest)) (statement env) true [] (Supply.Ahead rest) :=
  (makes_peek hlimit _).bind <| Makes.position fun _ =>
    (makes_eat _ _).bind <| Makes.pure _ _

/-- The end of the script. -/
theorem makes_statement_end :
    Makes (Supply.Ahead []) (statement env) false [] (Supply.Faces []) :=
  (makes_peek hlimit _).bind <| Makes.position fun _ => Makes.pure _ _

/-- A label. -/
theorem makes_label {name : String} (hname : Keyword.ofName? name = none) (rest : List Token) :
    Makes (Supply.Ahead (.name name :: .symbol .colon :: rest)) (statement env) true [.label name]
      (Supply.Ahead rest) := by
  refine makes_statement_named hlimit fun place => (makes_eat _ _).bind ?_
  rw [hname]
  exact (makes_peek hlimit _).bind <| (makes_eat _ _).bind <| makes_emit _ place _

/-- `ORG`. -/
theorem makes_org {word : List Token} {e : Expr} (he : IsExpr env.limit word e) (rest : List Token) :
    Makes (Supply.Ahead (.name "ORG" :: (word ++ .lineEnd :: rest))) (statement env) true [.org e]
      (Supply.Ahead rest) := by
  refine makes_statement_named hlimit fun place => (makes_eat _ _).bind ?_
  have hword : Keyword.ofName? "ORG" = some .org := by decide
  rw [hword]
  have hkeyword : Makes (Supply.Ahead (word ++ .lineEnd :: rest)) (keyword env.limit "ORG" .org)
      (.org e) [] (Supply.Ahead (.lineEnd :: rest)) :=
    (he.reads (.lineEnd :: rest) (by simp [EndsExpr])).bind (Makes.pure _ _)
  exact hkeyword.bind <| (makes_lineEnd hlimit rest).bind <| makes_emit _ place _

/-- A code with its arguments. -/
theorem makes_code {code : Code} (hname : Keyword.ofName? code.name = none)
    (hcode : env.registry.get? code.name env.game = some code) (word : List Token)
    {values : List Arg} {rest : List Token}
    (hfirst : (word ++ .lineEnd :: rest).headD .fileEnd ≠ .symbol .colon ∧
      (word ++ .lineEnd :: rest).headD .fileEnd ≠ .symbol .assign)
    (hargs : Makes (Supply.Ahead (word ++ .lineEnd :: rest)) (args env.limit) values []
      (Supply.Ahead (.lineEnd :: rest)))
    (hcheck : code.checkArgs values = .ok ()) :
    Makes (Supply.Ahead (.name code.name :: (word ++ .lineEnd :: rest))) (statement env) true
      [.code code.index values] (Supply.Ahead rest) := by
  refine makes_statement_named hlimit fun place => (makes_eat _ _).bind ?_
  rw [hname]
  refine (makes_peek hlimit _).bind ?_
  -- Neither a colon nor an assignment follows the name, so it is that of a code.
  have hinvoke : Makes (Supply.Faces (word ++ .lineEnd :: rest)) (invoke env place code.name) ()
      [.code code.index values] (Supply.Ahead rest) := by
    unfold invoke
    rw [hcode]
    refine (hargs.weaken (fun _ => Supply.Faces.ahead) fun _ h => h).bind
      ((makes_lineEnd hlimit rest).bind ?_)
    rw [hcheck]
    exact makes_emit _ place _
  split
  · rename_i heq
    exact absurd heq hfirst.1
  · rename_i heq
    exact absurd heq hfirst.2
  · exact hinvoke

end Statements

/-! ## Whole scripts -/

section Scripts

variable {env : Environment} {before after : List Token} {xs ys : List Statement}

/-- A statement and those that follow it. -/
theorem Makes.statements {rounds : Nat}
    (h : Makes (Supply.Ahead before) (statement env) true xs (Supply.Ahead after))
    (hrest : Makes (Supply.Ahead after) (statements env rounds) () ys (Supply.Faces [])) :
    Makes (Supply.Ahead before) (Parsing.statements env (rounds + 1)) () (xs ++ ys)
      (Supply.Faces []) := by
  -- The loop catches faults, so its rounds are not a chain of computations.
  intro state hmacros hstate
  obtain ⟨supply, new, hnew, hrun, hsupply⟩ := h state hmacros hstate
  obtain ⟨supply', new', hnew', hrun', hsupply'⟩ :=
    hrest { state with supply, statements := state.statements ++ new } hmacros hsupply
  refine ⟨supply', new ++ new', by simp [hnew, hnew'], ?_, hsupply'⟩
  simp only [Parsing.statements, hrun, hrun', Array.append_assoc]

/-- No statement is left. -/
theorem makes_statements_end (hlimit : 1 ≤ env.limit) {rounds : Nat} (hrounds : 1 ≤ rounds) :
    Makes (Supply.Ahead []) (statements env rounds) () [] (Supply.Faces []) := by
  intro state hmacros hstate
  obtain ⟨rounds, rfl⟩ := Nat.exists_eq_add_of_le' hrounds
  obtain ⟨supply, new, hnew, hrun, hsupply⟩ := makes_statement_end hlimit state hmacros hstate
  refine ⟨supply, new, hnew, ?_, hsupply⟩
  simp only [Parsing.statements, hrun]

end Scripts

end Parsing

/-- A script whose statements are known is read without complaint. -/
theorem Script.parse_of_spells {env : Environment} {name : String} {content : List UInt8}
    {tokens : List Token} (hspells : Lexer.Spells content tokens) {made : List Statement}
    (h : Parsing.Makes (Supply.Ahead tokens) (Parsing.statements env env.limit) () made
      (Supply.Faces [])) :
    ∃ program : Program, program.map Located.value = made ∧
      ({ name, content } : Script).parse env [] = ⟨.ok program, []⟩ := by
  -- A script starts with its own text and without macros.
  have hstart : (({ name, content } : Script).start []).supply.Ahead tokens :=
    ⟨rfl, rfl, none, .ofBytes name content, rfl, .inl ⟨rfl, hspells⟩⟩
  obtain ⟨supply, new, hnew, hrun, _⟩ := h (({ name, content } : Script).start []) rfl hstart
  refine ⟨new.toList, hnew, ?_⟩
  have hscript : Parsing.script env (({ name, content } : Script).start []) =
      .ok () { ({ name, content } : Script).start [] with supply, statements := #[] ++ new } := by
    rw [Parsing.script, Parsing.bind_of_ok hrun]
    rfl
  simp only [Script.parse, hscript, Array.empty_append]
  rfl

end CartScript
