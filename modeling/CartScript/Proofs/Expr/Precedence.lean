import CartScript.Expr.Builder

/-!
# What a builder accepts

A text of values, operators and parentheses may be read in several ways; the rules of precedence choose
one of them.  A builder takes the parts of a text one by one and accepts exactly the expressions, and
the nodes that it gives are those of the chosen reading, operands first.

A builder keeps nodes and operators, but no trees.  A `Sketch` is a builder that keeps the trees: the
one just completed, and around it what is still open.
-/

namespace CartScript.Expr

/-! ## Expressions as written -/

/-- A value as it is written. -/
inductive Leaf where
  | number (value : Int64)
  | label (name : String)
  /-- The current offset. -/
  | here
  deriving Repr, DecidableEq

def Leaf.node : Leaf → Node
  | .number value => .number value
  | .label name => .label name
  | .here => .here

/-- A part of an expression as it is written. -/
inductive Part where
  | value (leaf : Leaf)
  | operator (op : Symbol)
  | openParen
  | closeParen
  deriving Repr, DecidableEq

/-- Hands a part to a builder; `none` when the part is refused or does not belong to an expression. -/
def Builder.take (b : Builder) : Part → Option Builder
  | .value leaf => (b.value leaf.node).toOption
  | .operator op => (b.operator op).toOption.join
  | .openParen => b.openParen.toOption
  | .closeParen => b.closeParen.toOption.join

/-- The expression of parts that a new builder takes one after the other. -/
def build (parts : List Part) : Option Expr :=
  (parts.foldlM Builder.take {}).bind fun b => b.finish.toOption

/-! ## Trees and precedence -/

/-- The operators that may stand in front of a value. -/
def frontOperators : List Symbol := [.plus, .minus, .bitNot, .logicalNot]

/-- The operators that may stand between two values, level by level, the tightest first. -/
def levels : List (List Symbol) :=
  [[.times, .divide, .modulo], [.plus, .minus], [.shiftLeft, .shiftRight],
    [.less, .lessEqual, .greater, .greaterEqual], [.equal, .notEqual], [.bitAnd], [.bitXor],
    [.bitOr], [.logicalAnd], [.logicalOr]]

abbrev FrontOperator := { op : Symbol // op ∈ frontOperators }

abbrev BetweenOperator := { op : Symbol // op ∈ levels.flatten }

/-- The number of an operator's level. -/
def BetweenOperator.level (op : BetweenOperator) : Nat := levels.findIdx (·.contains op.1) + 1

/-- A way to read an expression. -/
inductive Tree where
  | leaf (value : Leaf)
  | group (inner : Tree)
  | front (op : FrontOperator) (operand : Tree)
  | between (op : BetweenOperator) (left right : Tree)
  deriving DecidableEq

namespace Tree

/-- The parts of an expression in the order in which they are written. -/
def written : Tree → List Part
  | .leaf value => [.value value]
  | .group inner => .openParen :: inner.written ++ [.closeParen]
  | .front op operand => .operator op.1 :: operand.written
  | .between op left right => left.written ++ .operator op.1 :: right.written

/-- The nodes of an expression, each operator after its operands. -/
def postorder : Tree → List Node
  | .leaf value => [value.node]
  | .group inner => inner.postorder
  | .front op operand => operand.postorder ++ [.unary op.1]
  | .between op left right => left.postorder ++ right.postorder ++ [.binary op.1]

/-- How loosely an expression holds together; 0 unless an operator between two values is outermost. -/
def level : Tree → Nat
  | .between op _ _ => op.level
  | _ => 0

/-- The rules of precedence.  An operator in front of a value takes the next value only.  An operator
    between two values takes operators of its own level on its left, and on its right only what binds
    more tightly. -/
def Ordered : Tree → Prop
  | .leaf _ => True
  | .group inner => inner.Ordered
  | .front _ operand => operand.level = 0 ∧ operand.Ordered
  | .between op left right =>
    left.level ≤ op.level ∧ right.level < op.level ∧ left.Ordered ∧ right.Ordered

end Tree

theorem mem_frontOperators_iff {op : Symbol} :
    op ∈ frontOperators ↔ op.role? = some .either ∨ op.role? = some .inFront := by
  cases op <;> simp [frontOperators, Symbol.role?]

theorem mem_levels_iff {op : Symbol} :
    op ∈ levels.flatten ↔ op.role? = some .either ∨ op.role? = some .between := by
  cases op <;> simp [levels, Symbol.role?]

/-- A builder lets operators wait by their levels. -/
theorem looseness_eq_level (op : BetweenOperator) : op.1.looseness = op.level := by
  obtain ⟨op, hop⟩ := op
  simp only [BetweenOperator.level]
  cases op with
  | bitNot | logicalNot | openParen | closeParen | openBracket | closeBracket | comma | colon
  | assign | other => simp [levels] at hop
  | _ => rfl

theorem BetweenOperator.level_pos (op : BetweenOperator) : 0 < op.level := Nat.succ_pos _

/-- Where a value is wanted, an operator must be one that stands in front of it. -/
theorem Builder.take_operator_front {b : Builder} (h : b.afterValue = false) (op : Symbol) :
    b.take (.operator op) = if op ∈ frontOperators then some (b.waitUnary op) else none := by
  simp only [Builder.take, Builder.operator, mem_frontOperators_iff]
  cases op.role? with
  | none => simp [Except.toOption]
  | some role => cases role <;> simp [h, Except.toOption]

/-- After a value, an operator must be one that stands between two values. -/
theorem Builder.take_operator_between {b : Builder} (h : b.afterValue = true) (op : Symbol) :
    b.take (.operator op) = if op ∈ levels.flatten then some (b.waitBinary op) else none := by
  simp only [Builder.take, Builder.operator, mem_levels_iff]
  cases op.role? with
  | none => simp [Except.toOption]
  | some role => cases role <;> simp [h, Except.toOption]

/-! ## Sketches -/

/-- What is open around a value that is still to come. -/
inductive Around where
  | paren
  | front (op : FrontOperator)
  | left (operand : Tree) (op : BetweenOperator)

namespace Around

def waiting : Around → Waiting
  | .paren => .paren
  | .front op => .unary op.1
  | .left _ op => .binary op.1

/-- The nodes that are written out already. -/
def nodes : Around → List Node
  | .left operand _ => operand.postorder
  | _ => []

/-- The parts that were given. -/
def written : Around → List Part
  | .paren => [.openParen]
  | .front op => [.operator op.1]
  | .left operand op => operand.written ++ [.operator op.1]

/-- The tree when the value has come. -/
def fill : Around → Tree → Tree
  | .paren, t => .group t
  | .front op, t => .front op t
  | .left operand op, t => .between op operand t

/-- Whether it is complete before an operator of the given level. -/
abbrev yieldsTo (a : Around) (level : Nat) : Bool := a.waiting.yieldsTo level

@[simp]
theorem yieldsTo_paren (level : Nat) : Around.paren.yieldsTo level = false := rfl

@[simp]
theorem yieldsTo_front (op : FrontOperator) (level : Nat) :
    (Around.front op).yieldsTo level = true := rfl

@[simp]
theorem yieldsTo_left (operand : Tree) (op : BetweenOperator) (level : Nat) :
    (Around.left operand op).yieldsTo level = decide (op.level ≤ level) := by
  simp [yieldsTo, waiting, Waiting.yieldsTo, looseness_eq_level]

end Around

/-- An expression under construction: what is open, the innermost first, and the value just
    completed. -/
structure Sketch where
  around : List Around := []
  value? : Option Tree := none

namespace Sketch

/-- Completes what yields to an operator of the given level. -/
def settle (level : Nat) : List Around → Tree → List Around × Tree
  | [], t => ([], t)
  | a :: around, t =>
    if a.yieldsTo level then settle level around (a.fill t) else (a :: around, t)

/-- Completes what is open since the latest open parenthesis. -/
def settleToParen : List Around → Tree → Option (List Around × Tree)
  | [], _ => none
  | .paren :: around, t => some (around, .group t)
  | a :: around, t => settleToParen around (a.fill t)

/-- Completes all that is open. -/
def settleAll (around : List Around) (t : Tree) : Tree := around.foldl (fun t a => a.fill t) t

def take (s : Sketch) : Part → Option Sketch
  | .value leaf =>
    match s.value? with
    | none => some { s with value? := some (.leaf leaf) }
    | some _ => none
  | .operator op =>
    match s.value? with
    | none => if h : op ∈ frontOperators then some ⟨.front ⟨op, h⟩ :: s.around, none⟩ else none
    | some t =>
      if h : op ∈ levels.flatten then
        let (around, operand) := settle (BetweenOperator.level ⟨op, h⟩) s.around t
        some ⟨.left operand ⟨op, h⟩ :: around, none⟩
      else none
  | .openParen =>
    match s.value? with
    | none => some ⟨.paren :: s.around, none⟩
    | some _ => none
  | .closeParen =>
    match s.value? with
    | none => none
    | some t => (settleToParen s.around t).map fun (around, group) => ⟨around, some group⟩

/-- Takes parts one after the other. -/
def takeAll (s : Sketch) (parts : List Part) : Option Sketch := parts.foldlM take s

/-- How many parentheses are open. -/
def parens (around : List Around) : Nat := around.countP (·.waiting = .paren)

/-- The tree of all that was given, if nothing is missing. -/
def finish (s : Sketch) : Option Tree :=
  s.value?.bind fun t => if parens s.around = 0 then some (settleAll s.around t) else none

/-! ## The builder of a sketch -/

/-- The nodes that are written out, the latest first. -/
def output (around : List Around) : List Node := around.flatMap fun a => a.nodes.reverse

/-- The builder that keeps no trees. -/
def builder (s : Sketch) : Builder where
  output := (s.value?.elim [] Tree.postorder).reverse ++ output s.around
  waiting := s.around.map Around.waiting
  afterValue := s.value?.isSome
  depth := parens s.around

@[simp]
theorem parens_paren (around : List Around) : parens (.paren :: around) = parens around + 1 := by
  simp [parens, Around.waiting]

@[simp]
theorem parens_front (op : FrontOperator) (around : List Around) :
    parens (.front op :: around) = parens around := by
  simp [parens, Around.waiting]

@[simp]
theorem parens_left (operand : Tree) (op : BetweenOperator) (around : List Around) :
    parens (.left operand op :: around) = parens around := by
  simp [parens, Around.waiting]

/-- A value with an operator around it is written out as the tree of both. -/
theorem output_fill (a : Around) (around : List Around) (t : Tree) (ha : a ≠ .paren) :
    a.waiting.node?.toList ++ (t.postorder.reverse ++ output (a :: around)) =
      (a.fill t).postorder.reverse ++ output around := by
  cases a with
  | paren => exact absurd rfl ha
  | front op => simp [Around.waiting, Waiting.node?, Around.fill, Tree.postorder, output, Around.nodes]
  | left operand op =>
    simp [Around.waiting, Waiting.node?, Around.fill, Tree.postorder, output, Around.nodes]

theorem release_eq (level : Nat) (around : List Around) (t : Tree) :
    Builder.release level (around.map Around.waiting) (t.postorder.reverse ++ output around) =
      ((settle level around t).1.map Around.waiting,
        (settle level around t).2.postorder.reverse ++ output (settle level around t).1) := by
  induction around generalizing t with
  | nil => rfl
  | cons a around ih =>
    rw [List.map_cons, Builder.release, settle]
    split
    · rename_i hyields
      rw [output_fill a around t (by rintro rfl; simp [Around.waiting, Waiting.yieldsTo] at hyields), ih]
    · rfl

theorem releaseToParen_eq (around : List Around) (t : Tree) :
    Builder.releaseToParen (around.map Around.waiting) (t.postorder.reverse ++ output around) =
      (settleToParen around t).map fun r =>
        (r.1.map Around.waiting, r.2.postorder.reverse ++ output r.1) := by
  induction around generalizing t with
  | nil => rfl
  | cons a around ih =>
    cases a with
    | paren => rfl
    | front op => exact (congrArg _ (output_fill (.front op) around t (by simp))).trans (ih _)
    | left operand op =>
      exact (congrArg _ (output_fill (.left operand op) around t (by simp))).trans (ih _)

theorem parens_settle (level : Nat) (around : List Around) (t : Tree) :
    parens (settle level around t).1 = parens around := by
  induction around generalizing t with
  | nil => rfl
  | cons a around ih =>
    rw [settle]
    split
    · rename_i hyields
      cases a with
      | paren => exact absurd hyields (by simp)
      | front op => rw [ih, parens_front]
      | left operand op => rw [ih, parens_left]
    · rfl

/-- The search for a parenthesis finds one if any is open, and no other is closed. -/
theorem exists_settleToParen {around : List Around} (h : 0 < parens around) (t : Tree) :
    ∃ rest group, settleToParen around t = some (rest, group) ∧ parens rest + 1 = parens around := by
  induction around generalizing t with
  | nil => simp [parens] at h
  | cons a around ih =>
    cases a with
    | paren => exact ⟨around, .group t, rfl, (parens_paren around).symm⟩
    | front op =>
      rw [parens_front] at h ⊢
      exact ih h _
    | left operand op =>
      rw [parens_left] at h ⊢
      exact ih h _

theorem settleToParen_eq_none {around : List Around} (h : parens around = 0) (t : Tree) :
    settleToParen around t = none := by
  induction around generalizing t with
  | nil => rfl
  | cons a around ih =>
    cases a with
    | paren => simp at h
    | front op | left operand op => exact ih (by simpa using h) _

theorem take_operator_builder (s : Sketch) (op : Symbol) :
    s.builder.take (.operator op) = (s.take (.operator op)).map builder := by
  obtain ⟨around, value?⟩ := s
  cases value? with
  | none =>
    rw [Builder.take_operator_front rfl]
    simp only [take]
    split <;> rfl
  | some t =>
    rw [Builder.take_operator_between rfl]
    simp only [take]
    split
    · rename_i hop
      have hrelease := release_eq op.looseness around t
      rw [← looseness_eq_level ⟨op, hop⟩]
      simp only [Builder.waitBinary, builder, Option.elim_some, Option.map_some, hrelease, parens_left,
        parens_settle]
      simp [Around.waiting, output, Around.nodes]
    · rfl

theorem take_closeParen_builder (s : Sketch) :
    s.builder.take .closeParen = (s.take .closeParen).map builder := by
  obtain ⟨around, value?⟩ := s
  have hdepth (value? : Option Tree) : (builder ⟨around, value?⟩).depth = parens around := rfl
  simp only [Builder.take, Builder.closeParen, take, hdepth]
  cases value? with
  | none => split <;> rfl
  | some t =>
    by_cases hparens : parens around = 0
    · simp [hparens, settleToParen_eq_none hparens, Except.toOption]
    · obtain ⟨rest, group, hsettle, hrest⟩ := exists_settleToParen (Nat.pos_of_ne_zero hparens) t
      have hrelease := releaseToParen_eq around t
      rw [hsettle] at hrelease
      simp [builder, hrelease, hsettle, Except.toOption, ← hrest]

/-- A sketch and its builder take and refuse the same parts. -/
theorem take_builder (s : Sketch) (part : Part) :
    s.builder.take part = (s.take part).map builder := by
  cases part with
  | value leaf =>
    obtain ⟨around, value?⟩ := s
    cases value? <;> rfl
  | operator op => exact take_operator_builder s op
  | openParen =>
    obtain ⟨around, value?⟩ := s
    cases value? with
    | none =>
      simp [Builder.take, Builder.openParen, take, builder, Except.toOption, output, Around.nodes,
        Around.waiting]
    | some t => rfl
  | closeParen => exact take_closeParen_builder s

@[simp]
theorem takeAll_nil (s : Sketch) : s.takeAll [] = some s := rfl

theorem takeAll_cons (s : Sketch) (part : Part) (parts : List Part) :
    s.takeAll (part :: parts) = (s.take part).bind fun next => next.takeAll parts := rfl

theorem takeAll_append (s : Sketch) (parts parts' : List Part) :
    s.takeAll (parts ++ parts') = (s.takeAll parts).bind fun next => next.takeAll parts' :=
  List.foldlM_append

theorem takeAll_builder (s : Sketch) (parts : List Part) :
    parts.foldlM Builder.take s.builder = (s.takeAll parts).map builder := by
  induction parts generalizing s with
  | nil => rfl
  | cons part parts ih =>
    rw [List.foldlM_cons, takeAll_cons, take_builder]
    cases s.take part with
    | none => rfl
    | some next => exact ih next

/-- What waits at the end is written out after its operands. -/
theorem postorder_settleAll {around : List Around} (h : parens around = 0) (t : Tree) :
    (t.postorder.reverse ++ output around).reverse ++
        (around.map Around.waiting).filterMap Waiting.node? = (settleAll around t).postorder := by
  induction around generalizing t with
  | nil => simp [output, settleAll]
  | cons a around ih =>
    have ha : a ≠ .paren := by rintro rfl; simp at h
    have hparens : parens around = 0 := by cases a <;> simp_all
    rw [settleAll, List.foldl_cons]
    refine Eq.trans ?_ (ih hparens (a.fill t))
    rw [← output_fill a around t ha]
    cases a with
    | paren => exact absurd rfl ha
    | front op | left operand op => simp [Around.waiting, Waiting.node?, output]

theorem finish_builder (s : Sketch) :
    s.builder.finish.toOption = s.finish.map fun t => ⟨t.postorder⟩ := by
  obtain ⟨around, value?⟩ := s
  cases value? with
  | none => rfl
  | some t =>
    simp only [Builder.finish, finish, Option.bind_some]
    by_cases hparens : parens around = 0
    · have hnodes := postorder_settleAll hparens t
      simp only [builder, Option.elim_some, hparens, hnodes]
      rfl
    · rw [if_neg hparens]
      simp [builder, hparens, Except.toOption]

end Sketch

/-- A builder makes of its parts what a sketch makes of them. -/
theorem build_eq (parts : List Part) :
    build parts = ((Sketch.takeAll {} parts).bind Sketch.finish).map fun t => ⟨t.postorder⟩ := by
  have hbuilder := Sketch.takeAll_builder {} parts
  rw [build, show ({} : Builder) = ({} : Sketch).builder from rfl, hbuilder]
  cases Sketch.takeAll {} parts with
  | none => rfl
  | some s => exact Sketch.finish_builder s

namespace Sketch

/-! ## A sketch follows the rules -/

/-- What is open is not complete before an operator of the given level. -/
def Holds (around : List Around) (level : Nat) : Prop :=
  ∀ a, around.head? = some a → a.yieldsTo level = false

/-- A value may be put where one is wanted: it is a single one, or what is open holds on to it. -/
def Admits (around : List Around) (t : Tree) : Prop := t.level = 0 ∨ Holds around t.level

/-- The operators that are open follow the rules of precedence. -/
def Stacked : List Around → Prop
  | [] => True
  | .left operand op :: around =>
    operand.Ordered ∧ operand.level ≤ op.level ∧ Holds around op.level ∧ Stacked around
  | _ :: around => Stacked around

/-- The parts that were given before the value. -/
def writtenAround : List Around → List Part
  | [] => []
  | a :: around => writtenAround around ++ a.written

/-- All parts that were given. -/
def written (s : Sketch) : List Part :=
  writtenAround s.around ++ s.value?.elim [] Tree.written

variable {around : List Around} {t : Tree} {level : Nat} {next s : Sketch}

theorem Holds.mono {level' : Nat} (h : Holds around level) (hle : level' ≤ level) :
    Holds around level' := by
  intro a ha
  have hwaits := h a ha
  cases a with
  | paren => rfl
  | front op => simp at hwaits
  | left operand op =>
    simp only [Around.yieldsTo_left, decide_eq_false_iff_not] at hwaits ⊢
    omega

theorem settle_of_holds (h : Holds around level) (t : Tree) :
    settle level around t = (around, t) := by
  cases around with
  | nil => rfl
  | cons a around =>
    have hwaits : a.yieldsTo level = false := h a rfl
    rw [settle, hwaits, if_neg (by simp)]

theorem writtenAround_fill (a : Around) (around : List Around) (t : Tree) (ha : a ≠ .paren) :
    writtenAround around ++ (a.fill t).written = writtenAround (a :: around) ++ t.written := by
  cases a with
  | paren => exact absurd rfl ha
  | front op | left operand op => simp [Around.fill, Tree.written, writtenAround, Around.written]

/-- Filling in a value that may be put there gives a value that may be put one step further out. -/
theorem ordered_fill {a : Around} (ha : a ≠ .paren) (hstacked : Stacked (a :: around))
    (ht : t.Ordered) (hadmits : Admits (a :: around) t) :
    (a.fill t).Ordered ∧ Admits around (a.fill t) ∧ Stacked around := by
  cases a with
  | paren => exact absurd rfl ha
  | front op =>
    -- An operator in front holds on to nothing, so its operand is a single value.
    have hsingle : t.level = 0 := hadmits.resolve_right fun h => by simpa using h _ rfl
    exact ⟨⟨hsingle, ht⟩, .inl rfl, hstacked⟩
  | left operand op =>
    obtain ⟨hordered, hlevel, hholds, hrest⟩ := hstacked
    have htight : t.level < op.level := by
      rcases hadmits with hsingle | hwaits
      · have hpos := op.level_pos
        omega
      · have hwaits := hwaits _ rfl
        simpa using hwaits
    exact ⟨⟨hlevel, htight, hordered, ht⟩, .inr hholds, hrest⟩

/-- What settling before an operator leaves: an operand for it, and something that holds on to it. -/
theorem settle_spec (level : Nat) (hstacked : Stacked around) (ht : t.Ordered)
    (hadmits : Admits around t) (hlevel : t.level ≤ level) :
    Stacked (settle level around t).1 ∧ Holds (settle level around t).1 level ∧
      (settle level around t).2.Ordered ∧ (settle level around t).2.level ≤ level ∧
      writtenAround (settle level around t).1 ++ (settle level around t).2.written =
        writtenAround around ++ t.written := by
  induction around generalizing t with
  | nil => exact ⟨trivial, by simp [Holds, settle], ht, hlevel, rfl⟩
  | cons a around ih =>
    rw [settle]
    split
    · rename_i hyields
      have ha : a ≠ .paren := by rintro rfl; simp at hyields
      obtain ⟨hfill, hnext, hrest⟩ := ordered_fill ha hstacked ht hadmits
      -- What yields to the level binds at least as tightly.
      have hbound : (a.fill t).level ≤ level := by
        cases a with
        | paren => exact absurd rfl ha
        | front op => exact Nat.zero_le _
        | left operand op =>
          show op.level ≤ level
          simpa using hyields
      rw [← writtenAround_fill a around t ha]
      exact ih hrest hfill hnext hbound
    · rename_i hwaits
      refine ⟨hstacked, ?_, ht, hlevel, rfl⟩
      intro b hb
      obtain rfl : a = b := Option.some.inj hb
      simpa using hwaits

theorem settleToParen_spec {rest : List Around} {group : Tree} (hstacked : Stacked around)
    (ht : t.Ordered) (hadmits : Admits around t) (h : settleToParen around t = some (rest, group)) :
    Stacked rest ∧ group.Ordered ∧ group.level = 0 ∧
      writtenAround rest ++ group.written = writtenAround around ++ t.written ++ [.closeParen] := by
  induction around generalizing t with
  | nil => simp [settleToParen] at h
  | cons a around ih =>
    by_cases ha : a = .paren
    · subst ha
      simp only [settleToParen, Option.some.injEq, Prod.mk.injEq] at h
      obtain ⟨rfl, rfl⟩ := h
      exact ⟨hstacked, ht, rfl, by simp [Tree.written, writtenAround, Around.written]⟩
    · obtain ⟨hfill, hnext, hrest⟩ := ordered_fill ha hstacked ht hadmits
      rw [← writtenAround_fill a around t ha]
      refine ih hrest hfill hnext ?_
      cases a with
      | paren => exact absurd rfl ha
      | front op | left operand op => exact h

theorem settleAll_spec (hparens : parens around = 0) (hstacked : Stacked around) (ht : t.Ordered)
    (hadmits : Admits around t) :
    (settleAll around t).Ordered ∧
      (settleAll around t).written = writtenAround around ++ t.written := by
  induction around generalizing t with
  | nil => exact ⟨ht, rfl⟩
  | cons a around ih =>
    have ha : a ≠ .paren := by rintro rfl; simp at hparens
    obtain ⟨hfill, hnext, hrest⟩ := ordered_fill ha hstacked ht hadmits
    rw [← writtenAround_fill a around t ha]
    exact ih (by cases a <;> simp_all) hrest hfill hnext

/-- The invariant of a sketch. -/
structure Sound (s : Sketch) : Prop where
  around : Stacked s.around
  value : ∀ t, s.value? = some t → t.Ordered ∧ t.level = 0

theorem Sound.empty : Sound {} := ⟨trivial, by simp⟩

theorem Sound.take {part : Part} (hs : s.Sound) (h : s.take part = some next) :
    next.Sound ∧ next.written = s.written ++ [part] := by
  obtain ⟨around, value?⟩ := s
  cases part with
  | value leaf =>
    cases value? with
    | none =>
      simp only [Sketch.take, Option.some.injEq] at h
      subst h
      refine ⟨⟨hs.around, ?_⟩, by simp [written, Tree.written]⟩
      rintro t ⟨rfl⟩
      exact ⟨trivial, rfl⟩
    | some t => simp [Sketch.take] at h
  | openParen =>
    cases value? with
    | none =>
      simp only [Sketch.take, Option.some.injEq] at h
      subst h
      exact ⟨⟨hs.around, by simp⟩, by simp [written, writtenAround, Around.written]⟩
    | some t => simp [Sketch.take] at h
  | closeParen =>
    cases value? with
    | none => simp [Sketch.take] at h
    | some t =>
      simp only [Sketch.take, Option.map_eq_some_iff] at h
      obtain ⟨⟨rest, group⟩, hsettle, rfl⟩ := h
      obtain ⟨ht, hsingle⟩ := hs.value t rfl
      obtain ⟨hrest, hgroup, hlevel, hwritten⟩ :=
        settleToParen_spec hs.around ht (.inl hsingle) hsettle
      refine ⟨⟨hrest, ?_⟩, hwritten⟩
      rintro _ ⟨rfl⟩
      exact ⟨hgroup, hlevel⟩
  | operator op =>
    cases value? with
    | none =>
      simp only [Sketch.take] at h
      split at h
      · simp only [Option.some.injEq] at h
        subst h
        exact ⟨⟨hs.around, by simp⟩, by simp [written, writtenAround, Around.written]⟩
      · simp at h
    | some t =>
      simp only [Sketch.take] at h
      split at h
      · rename_i hop
        simp only [Option.some.injEq] at h
        subst h
        obtain ⟨ht, hsingle⟩ := hs.value t rfl
        -- The value becomes the left operand, with all that the operator completes.
        obtain ⟨hrest, hholds, hordered, hlevel, hwritten⟩ :=
          settle_spec (BetweenOperator.level ⟨op, hop⟩) hs.around ht (.inl hsingle)
            (by omega)
        refine ⟨⟨⟨hordered, hlevel, hholds, hrest⟩, by simp⟩, ?_⟩
        simp only [written, Option.elim_some, ← hwritten]
        simp [writtenAround, Around.written]
      · simp at h

theorem Sound.takeAll {parts : List Part} (hs : s.Sound) (h : s.takeAll parts = some next) :
    next.Sound ∧ next.written = s.written ++ parts := by
  induction parts generalizing s with
  | nil =>
    obtain rfl : s = next := by simpa using h
    exact ⟨hs, by simp⟩
  | cons part parts ih =>
    rw [takeAll_cons, Option.bind_eq_some_iff] at h
    obtain ⟨middle, hfirst, hrest⟩ := h
    obtain ⟨hmiddle, hwritten⟩ := hs.take hfirst
    obtain ⟨hnext, hall⟩ := ih hmiddle hrest
    exact ⟨hnext, by rw [hall, hwritten, List.append_assoc, List.singleton_append]⟩

theorem Sound.finish (hs : s.Sound) (h : s.finish = some t) :
    t.Ordered ∧ t.written = s.written := by
  obtain ⟨value, hvalue, h⟩ := Option.bind_eq_some_iff.1 h
  obtain ⟨hordered, hsingle⟩ := hs.value value hvalue
  split at h
  · rename_i hparens
    obtain rfl := Option.some.inj h
    rw [written, hvalue]
    exact settleAll_spec hparens hs.around hordered (.inl hsingle)
  · simp at h

/-! ## Trees that follow the rules are found again -/

/-- What is open along the right edge of a tree while its last value is being read. -/
def edge : Tree → List Around
  | .front op operand => edge operand ++ [.front op]
  | .between op left right => edge right ++ [.left left op]
  | _ => []

/-- The last value of a tree. -/
def tip : Tree → Tree
  | .front _ operand => tip operand
  | .between _ _ right => tip right
  | t => t

theorem settle_edge (t : Tree) (around : List Around) (ht : t.Ordered) (hlevel : t.level ≤ level) :
    settle level (edge t ++ around) (tip t) = settle level around t := by
  induction t generalizing around with
  | leaf value | group inner => rfl
  | front op operand ih =>
    rw [edge, tip, List.append_assoc, ih _ ht.2 (by have := ht.1; omega)]
    rfl
  | between op left right _ ih =>
    obtain ⟨_, hright, _, hordered⟩ := ht
    have hop : op.level ≤ level := hlevel
    rw [edge, tip, List.append_assoc, ih _ hordered (by omega), List.singleton_append, settle,
      if_pos (by simpa using hop)]
    rfl

theorem settleToParen_edge (t : Tree) (around : List Around) :
    settleToParen (edge t ++ around) (tip t) = settleToParen around t := by
  induction t generalizing around with
  | leaf value | group inner => rfl
  | front op operand ih | between op left right _ ih =>
    rw [edge, tip, List.append_assoc, ih]
    rfl

theorem settleAll_edge (t : Tree) : settleAll (edge t) (tip t) = t := by
  induction t with
  | leaf value | group inner => rfl
  | front op operand ih | between op left right _ ih =>
    rw [settleAll] at ih
    rw [edge, tip, settleAll, List.foldl_append, ih]
    rfl

theorem parens_edge (t : Tree) : parens (edge t) = 0 := by
  induction t with
  | leaf value | group inner => rfl
  | front op operand ih | between op left right _ ih =>
    simpa [edge, parens, List.countP_append, Around.waiting] using ih

theorem take_openParen (around : List Around) :
    take ⟨around, none⟩ .openParen = some ⟨.paren :: around, none⟩ := rfl

theorem take_closeParen (around : List Around) (t : Tree) :
    take ⟨around, some t⟩ .closeParen =
      (settleToParen around t).map fun r => ⟨r.1, some r.2⟩ := rfl

theorem take_front (around : List Around) (op : FrontOperator) :
    take ⟨around, none⟩ (.operator op.1) = some ⟨.front op :: around, none⟩ := by
  simp [take, op.2]

theorem take_between (around : List Around) (t : Tree) (op : BetweenOperator) :
    take ⟨around, some t⟩ (.operator op.1) =
      some ⟨.left (settle op.level around t).2 op :: (settle op.level around t).1, none⟩ := by
  simp only [take, op.2, dif_pos]

/-- The parts of a tree, given where the tree may be put, leave its last value and its right edge. -/
theorem takeAll_written (t : Tree) (around : List Around) (ht : t.Ordered) (h : Admits around t) :
    takeAll ⟨around, none⟩ t.written = some ⟨edge t ++ around, some (tip t)⟩ := by
  induction t generalizing around with
  | leaf value => rfl
  | group inner ih =>
    have hadmits : Admits (.paren :: around) inner := by
      right
      rintro a ⟨rfl⟩
      rfl
    rw [Tree.written, List.cons_append, takeAll_cons, take_openParen, Option.bind_some, takeAll_append,
      ih _ ht hadmits, Option.bind_some, takeAll_cons, take_closeParen, settleToParen_edge]
    rfl
  | front op operand ih =>
    rw [Tree.written, takeAll_cons, take_front, Option.bind_some, ih _ ht.2 (.inl ht.1), edge, tip,
      List.append_assoc, List.singleton_append]
  | between op left right ihl ihr =>
    obtain ⟨hleft, hright, hlo, hro⟩ := ht
    have hholds : Holds around op.level := h.resolve_left (Nat.ne_of_gt op.level_pos)
    -- The operator completes the whole left operand, and nothing of what is around it.
    have hsettle : settle op.level (edge left ++ around) (tip left) = (around, left) := by
      rw [settle_edge left around hlo hleft, settle_of_holds hholds]
    have hadmits : Admits (.left left op :: around) right := by
      right
      rintro a ⟨rfl⟩
      simpa using hright
    rw [Tree.written, takeAll_append, ihl around hlo (.inr (hholds.mono hleft)), Option.bind_some,
      takeAll_cons, take_between, hsettle, Option.bind_some, ihr _ hro hadmits, edge, tip,
      List.append_assoc, List.singleton_append]

/-- A tree that follows the rules is what a sketch makes of its parts. -/
theorem finish_written (t : Tree) (ht : t.Ordered) :
    (takeAll {} t.written).bind finish = some t := by
  rw [takeAll_written t [] ht (.inr (by simp [Holds])), List.append_nil, Option.bind_some, finish,
    Option.bind_some, parens_edge, if_pos rfl, settleAll_edge]

/-! ## All expressions are accepted -/

/-- The parts of any reading are taken, whatever is open around them, and leave as many open
    parentheses as there were. -/
theorem exists_takeAll (t : Tree) (around : List Around) :
    ∃ rest value, takeAll ⟨around, none⟩ t.written = some ⟨rest, some value⟩ ∧
      parens rest = parens around := by
  induction t generalizing around with
  | leaf leaf => exact ⟨around, .leaf leaf, rfl, rfl⟩
  | group inner ih =>
    obtain ⟨rest, value, hinner, hparens⟩ := ih (.paren :: around)
    rw [parens_paren] at hparens
    have hopen : 0 < parens rest := by omega
    obtain ⟨outer, group, hsettle, houter⟩ := exists_settleToParen hopen value
    refine ⟨outer, group, ?_, by omega⟩
    rw [Tree.written, List.cons_append, takeAll_cons, take_openParen, Option.bind_some, takeAll_append,
      hinner, Option.bind_some, takeAll_cons, take_closeParen, hsettle]
    rfl
  | front op operand ih =>
    obtain ⟨rest, value, hoperand, hparens⟩ := ih (.front op :: around)
    refine ⟨rest, value, ?_, by rw [hparens, parens_front]⟩
    rw [Tree.written, takeAll_cons, take_front, Option.bind_some, hoperand]
  | between op left right ihl ihr =>
    -- The operator may complete more or less than the left side of this reading.
    obtain ⟨restLeft, valueLeft, hleft, hparensLeft⟩ := ihl around
    obtain ⟨rest, value, hright, hparens⟩ :=
      ihr (.left (settle op.level restLeft valueLeft).2 op :: (settle op.level restLeft valueLeft).1)
    refine ⟨rest, value, ?_, by rw [hparens, parens_left, parens_settle, hparensLeft]⟩
    rw [Tree.written, takeAll_append, hleft, Option.bind_some, takeAll_cons, take_between,
      Option.bind_some, hright]

end Sketch

/-- A builder accepts exactly the texts that can be read as an expression.  Of the readings of such a
    text one follows the rules of precedence, and the nodes that the builder gives are those of this
    reading, each operator after its operands. -/
theorem build_determines (parts : List Part) :
    ((∃ e, build parts = some e) ↔ ∃ t : Tree, t.written = parts) ∧
    ∀ e, build parts = some e → ∃ t : Tree, e.nodes = t.postorder ∧
      ∀ t' : Tree, t'.Ordered ∧ t'.written = parts ↔ t' = t := by
  -- What is accepted has a reading by the rules, namely the one that the sketch makes.
  have hread : ∀ e, build parts = some e → ∃ t : Tree, e.nodes = t.postorder ∧ t.Ordered ∧
      t.written = parts := by
    intro e he
    rw [build_eq, Option.map_eq_some_iff] at he
    obtain ⟨t, ht, rfl⟩ := he
    obtain ⟨s, hs, hfinish⟩ := Option.bind_eq_some_iff.1 ht
    obtain ⟨hsound, hwritten⟩ := Sketch.Sound.empty.takeAll hs
    obtain ⟨hordered, hparts⟩ := hsound.finish hfinish
    exact ⟨t, rfl, hordered, hparts.trans hwritten⟩
  refine ⟨⟨?_, ?_⟩, ?_⟩
  · rintro ⟨e, he⟩
    obtain ⟨t, _, _, hwritten⟩ := hread e he
    exact ⟨t, hwritten⟩
  · rintro ⟨t, rfl⟩
    obtain ⟨rest, value, htake, hparens⟩ := Sketch.exists_takeAll t []
    have hclosed : Sketch.parens rest = 0 := hparens
    refine ⟨⟨(Sketch.settleAll rest value).postorder⟩, ?_⟩
    rw [build_eq, htake, Option.bind_some]
    simp [Sketch.finish, hclosed]
  · intro e he
    obtain ⟨t, hnodes, hordered, hwritten⟩ := hread e he
    refine ⟨t, hnodes, fun t' => ⟨?_, ?_⟩⟩
    · rintro ⟨hordered', hwritten'⟩
      -- A second reading by the rules would be made of the same parts.
      have hfound := Sketch.finish_written t hordered
      rw [hwritten, ← hwritten', Sketch.finish_written t' hordered'] at hfound
      exact Option.some.inj hfound
    · rintro rfl
      exact ⟨hordered, hwritten⟩

end CartScript.Expr
