import CartScript.Token.Stream

/-!
# Macros

A macro is a name for tokens.  A `MacroStream` hands out recorded tokens one by one: a body, with every
reference to a parameter replaced by its argument.  It goes by an index into the body and one into the
argument that stands there.

`MacroStream.items` is what is left: `peek` shows its first item, `eat` drops it, and at the start it is
`fill` of the body and the arguments.  A reference inside an argument is a fault.  An `Expansion` is a
stream whose arguments have none, and `Expansion.tokens` are its items.
-/

namespace CartScript

/-- A recorded token. -/
inductive Piece where
  | token (token : Token)
  /-- Stands for the argument of this number. -/
  | argument (index : Nat)
  deriving Repr, DecidableEq, Inhabited

/-- Recorded tokens. -/
abbrev Pieces := List (Located Piece)

structure Macro where
  name : String
  /-- The names of the parameters; a macro without a list of them is used without arguments. -/
  params : Option (List String)
  body : Pieces
  deriving Repr, DecidableEq, Inhabited

/-- The tokens of an argument. -/
abbrev Argument := List (Located Token)

/-- How a token is recorded. -/
def Located.record (token : Located Token) : Located Piece := ⟨token.position, .token token.value⟩

/-- The token that was recorded. -/
def Located.token? (item : Located Piece) : Option (Located Token) :=
  match item.value with
  | .token token => some ⟨item.position, token⟩
  | .argument _ => none

/-- The tokens that a part of a body stands for. -/
def Piece.tokens (args : List Argument) (piece : Located Piece) : List (Located Token) :=
  match piece.value with
  | .token t => [⟨piece.position, t⟩]
  | .argument index => args.getD index []

/-- A body with its arguments in place. -/
def substitute (body : Pieces) (args : List Argument) : List (Located Token) :=
  body.flatMap (Piece.tokens args)

/-- What a part of a body stands for.  Of an argument, the items before `argIndex` are left out. -/
def Piece.items (args : List Pieces) (argIndex : Nat) (piece : Located Piece) :
    Pieces :=
  match piece.value with
  | .token _ => [piece]
  | .argument index => (args.getD index []).drop argIndex

/-- A body with recorded arguments in place. -/
def fill (body : Pieces) (args : List Pieces) : Pieces :=
  body.flatMap (Piece.items args 0)

/-- Recorded tokens that are being read. -/
structure MacroStream where
  name : String
  body : Pieces
  args : List Pieces := []
  /-- The place in the body. -/
  index : Nat := 0
  /-- The place in the argument that stands there. -/
  argIndex : Nat := 0
  deriving Repr, DecidableEq, Inhabited

namespace MacroStream

/-- The use of a macro with recorded arguments, from its start. -/
def use (m : Macro) (args : List Pieces) : MacroStream :=
  { name := m.name, body := m.body, args }

/-- Moves both indices past arguments that have no tokens left, where `ahead` is what is left of the
    body. -/
def passEmpty (args : List Pieces) :
    (ahead : Pieces) → (index argIndex : Nat) → Nat × Nat
  | [], index, argIndex => (index, argIndex)
  | piece :: ahead, index, argIndex =>
    match piece.value with
    | .token _ => (index, argIndex)
    | .argument number =>
      if argIndex < (args.getD number []).length then (index, argIndex)
      else passEmpty args ahead (index + 1) 0

/-- Moves past arguments that have no tokens left. -/
def settle (s : MacroStream) : MacroStream :=
  let next := passEmpty s.args (s.body.drop s.index) s.index s.argIndex
  { s with index := next.1, argIndex := next.2 }

/-- The item in front.  Where an argument without tokens comes next there is none, also if there are
    tokens behind it. -/
def current? (s : MacroStream) : Option (Located Piece) :=
  match s.body[s.index]? with
  | none => none
  | some piece =>
    match piece.value with
    | .token _ => some piece
    | .argument number => (s.args.getD number [])[s.argIndex]?

/-- What an item is to a reader of the stream. -/
def reading (name : String) : Option (Located Piece) → Reading
  | none => .ok .fileEnd
  | some item =>
    match item.value with
    | .token token => .ok token
    | .argument _ => .error (.nestedArgument name)

/-- The next token. -/
def peek (s : MacroStream) : Reading × MacroStream := (reading s.name s.settle.current?, s.settle)

/-- Drops the next token.  After the last token of an argument the next one comes in front. -/
def eat (s : MacroStream) : MacroStream :=
  let s := s.settle
  match s.body[s.index]? with
  | none => s
  | some piece =>
    match piece.value with
    | .argument _ => settle { s with argIndex := s.argIndex + 1 }
    | .token _ => { s with index := s.index + 1 }

/-- The position of the item in front, else of the end of the body. -/
def position (s : MacroStream) : Position :=
  match s.current?.or s.body.getLast? with
  | some item => item.position
  | none => ⟨s.name, 0, 0⟩

/-- The items that are left, where `ahead` is what is left of the body. -/
def itemsOf (args : List Pieces) (argIndex : Nat) :
    (ahead : Pieces) → Pieces
  | [] => []
  | piece :: ahead => Piece.items args argIndex piece ++ fill ahead args

/-- The items that are left. -/
def items (s : MacroStream) : Pieces :=
  itemsOf s.args s.argIndex (s.body.drop s.index)

/-- In front of a token, no argument is in progress. -/
def Parked (s : MacroStream) : Prop :=
  ∀ piece ∈ s.body[s.index]?, (∃ token, piece.value = .token token) → s.argIndex = 0

/-- No argument without items stands in front. -/
def Settled (s : MacroStream) : Prop :=
  ∀ piece ∈ s.body[s.index]?, ∀ number, piece.value = .argument number →
    s.argIndex < (s.args.getD number []).length

/-! ### The items that are left -/

theorem itemsOf_zero (args : List Pieces) (ahead : Pieces) :
    itemsOf args 0 ahead = fill ahead args := by
  cases ahead <;> simp [itemsOf, fill]

theorem items_use (m : Macro) (args : List Pieces) :
    (use m args).items = fill m.body args :=
  itemsOf_zero args m.body

/-- `passEmpty` leaves the items as they are, and no empty argument in front. -/
private theorem passEmpty_spec (s : MacroStream) {ahead : Pieces} {index : Nat}
    (argIndex : Nat) (h : s.body.drop index = ahead) :
    let next := passEmpty s.args ahead index argIndex
    itemsOf s.args next.2 (s.body.drop next.1) = itemsOf s.args argIndex ahead ∧
      Settled { s with index := next.1, argIndex := next.2 } ∧
      (Parked { s with index, argIndex } → Parked { s with index := next.1, argIndex := next.2 }) := by
  have hfront := List.head?_drop (l := s.body) (i := index)
  rw [h] at hfront
  fun_induction passEmpty s.args ahead index argIndex with
  | case1 index argIndex =>
    exact ⟨congrArg _ h, by simp [Settled, ← hfront], id⟩
  | case2 piece ahead index argIndex token hp =>
    exact ⟨congrArg _ h, by simp [Settled, ← hfront, hp], id⟩
  | case3 piece ahead index argIndex number hp hlt =>
    exact ⟨congrArg _ h, by simpa [Settled, ← hfront, hp] using hlt, id⟩
  | case4 piece ahead index argIndex number hp hge ih =>
    -- The argument in front has no items left.
    have hrest : s.body.drop (index + 1) = ahead := by rw [← List.tail_drop, h, List.tail_cons]
    obtain ⟨hitems, hsettled, hparked⟩ := ih hrest (by rw [← hrest, List.head?_drop])
    have hnone : (s.args.getD number []).drop argIndex = [] := List.drop_of_length_le (by omega)
    refine ⟨?_, hsettled, fun _ => hparked fun _ _ _ => rfl⟩
    rw [hitems, itemsOf_zero]
    simp only [itemsOf, Piece.items, hp, hnone, List.nil_append]

variable {s : MacroStream}

@[simp]
theorem items_settle (s : MacroStream) : s.settle.items = s.items :=
  (passEmpty_spec s s.argIndex rfl).1

theorem settled_settle (s : MacroStream) : s.settle.Settled := (passEmpty_spec s s.argIndex rfl).2.1

theorem Parked.settle (h : s.Parked) : s.settle.Parked := (passEmpty_spec s s.argIndex rfl).2.2 h

/-- The stream after `settle` shows its first item. -/
theorem Settled.current?_eq (h : s.Settled) : s.current? = s.items.head? := by
  have hfront := List.head?_drop (l := s.body) (i := s.index)
  unfold items current?
  cases hahead : s.body.drop s.index with
  | nil => rw [hahead] at hfront; rw [← hfront]; rfl
  | cons piece ahead =>
    rw [hahead, List.head?_cons] at hfront
    rw [← hfront]
    cases hp : piece.value with
    | token token => simp [itemsOf, Piece.items, hp]
    | argument number =>
      have hlt := h piece hfront.symm number hp
      simp only [itemsOf, Piece.items, hp, List.head?_append, List.head?_drop]
      rw [List.getElem?_eq_getElem hlt, Option.some_or]

/-- Where the stream is settled, there is nothing to move past. -/
theorem Settled.settle_eq (h : s.Settled) : s.settle = s := by
  have hfront := List.head?_drop (l := s.body) (i := s.index)
  unfold settle
  cases hahead : s.body.drop s.index with
  | nil => rfl
  | cons piece ahead =>
    rw [hahead, List.head?_cons] at hfront
    cases hp : piece.value with
    | token token => simp [passEmpty, hp]
    | argument number =>
      simp only [passEmpty, hp]
      rw [if_pos (h piece hfront.symm number hp)]

/-- `peek` shows the first item that is left. -/
theorem peek_fst (s : MacroStream) : s.peek.1 = reading s.name s.items.head? := by
  rw [peek, (settled_settle s).current?_eq, items_settle]

/-- `eat` drops one item, and is `Parked` again. -/
private theorem eat_spec (h : s.Parked) : s.eat.items = s.items.tail ∧ s.eat.Parked := by
  have hsettled := settled_settle s
  have hparked := h.settle
  rw [← items_settle s]
  unfold eat
  generalize s.settle = s at hsettled hparked ⊢
  have hfront := List.head?_drop (l := s.body) (i := s.index)
  have hrest := List.tail_drop (l := s.body) (i := s.index)
  cases hahead : s.body.drop s.index with
  | nil =>
    rw [hahead] at hfront
    have hnone : s.items = [] := by rw [items, hahead]; rfl
    simp only [← hfront, List.head?_nil, hnone, List.tail_nil, true_and]
    exact hparked
  | cons piece ahead =>
    rw [hahead] at hfront hrest
    simp only [← hfront, List.head?_cons]
    cases hp : piece.value with
    | token token =>
      have hzero := hparked piece hfront.symm ⟨token, hp⟩
      refine ⟨?_, fun _ _ _ => hzero⟩
      show itemsOf s.args s.argIndex (s.body.drop (s.index + 1)) = _
      rw [hzero, itemsOf_zero, ← hrest, items, hahead]
      simp [itemsOf, Piece.items, hp]
    | argument number =>
      have hlt := hsettled piece hfront.symm number hp
      have hargument : Parked { s with argIndex := s.argIndex + 1 } := by
        rintro other hother ⟨token, htoken⟩
        rw [← hfront] at hother
        cases hother
        simp [hp] at htoken
      refine ⟨?_, hargument.settle⟩
      rw [items_settle]
      simp only [items, hahead, itemsOf, Piece.items, hp]
      rw [List.drop_eq_getElem_cons hlt]
      rfl

/-- `eat` drops the first item that is left. -/
theorem items_eat (h : s.Parked) : s.eat.items = s.items.tail := (eat_spec h).1

theorem Parked.eat (h : s.Parked) : s.eat.Parked := (eat_spec h).2

/-- The position after `peek` is the one of the first item that is left. -/
theorem position_peek {item : Located Piece} (h : s.items.head? = some item) :
    s.peek.2.position = item.position := by
  rw [← items_settle, ← (settled_settle s).current?_eq] at h
  simp [peek, position, h]

/-- `eat` moves the indices only. -/
theorem name_eat (s : MacroStream) : s.eat.name = s.name ∧ s.eat.args = s.args := by
  simp only [eat]
  split
  · exact ⟨rfl, rfl⟩
  · split <;> exact ⟨rfl, rfl⟩

end MacroStream

/-! ### Arguments without references -/

/-- Whether a token was recorded, and not a reference. -/
def Piece.isToken : Piece → Bool
  | .token _ => true
  | .argument _ => false

/-- The use of a macro that is being read: a stream with no references in its arguments. -/
structure Expansion extends MacroStream where
  parked : toMacroStream.Parked
  plain : ∀ arg ∈ args, ∀ item ∈ arg, item.value.isToken
  deriving Repr, DecidableEq

/-- `Located.record` makes no references. -/
theorem plain_record (args : List Argument) :
    ∀ arg ∈ args.map (List.map Located.record), ∀ item ∈ arg, item.value.isToken := by
  simp only [List.mem_map, forall_exists_index, and_imp, forall_apply_eq_imp_iff₂]
  exact fun _ _ _ _ => rfl

/-- Recorded arguments without references. -/
structure Recorded where
  args : List Pieces
  plain : ∀ arg ∈ args, ∀ item ∈ arg, item.value.isToken

def Recorded.ofTokens (args : List Argument) : Recorded :=
  ⟨args.map (List.map Located.record), plain_record args⟩

namespace Expansion

/-- The use of a macro with recorded arguments. -/
def ofRecorded (m : Macro) (recorded : Recorded) : Expansion :=
  ⟨.use m recorded.args, fun _ _ _ => rfl, recorded.plain⟩

/-- The use of a macro with the given arguments. -/
def ofMacro (m : Macro) (args : List Argument) : Expansion := ofRecorded m (.ofTokens args)

/-- Hands a token of the macro of this name back. -/
def ofToken (name : String) (token : Located Token) : Expansion where
  name := name
  body := [token.record]
  args := []
  parked := fun _ _ _ => rfl
  plain := plain_record []

/-- Moves past arguments that have no tokens left. -/
def settle (e : Expansion) : Expansion := ⟨e.toMacroStream.settle, e.parked.settle, e.plain⟩

/-- The next token. -/
def peek (e : Expansion) : Reading × Expansion := (e.toMacroStream.peek.1, e.settle)

/-- Drops the next token. -/
def eat (e : Expansion) : Expansion :=
  ⟨e.toMacroStream.eat, e.parked.eat, e.toMacroStream.name_eat.2 ▸ e.plain⟩

/-- The tokens that are left. -/
def tokens (e : Expansion) : List (Located Token) := e.items.filterMap Located.token?

theorem filterMap_record (tokens : List (Located Token)) :
    (tokens.map Located.record).filterMap Located.token? = tokens := by
  rw [List.filterMap_map]
  exact List.filterMap_some

/-- `Piece.items` adds no references. -/
theorem isToken_of_mem_items {args : List Pieces}
    (h : ∀ arg ∈ args, ∀ item ∈ arg, item.value.isToken) (argIndex : Nat) (piece : Located Piece) :
    ∀ item ∈ Piece.items args argIndex piece, item.value.isToken := by
  intro item hitem
  cases hp : piece.value with
  | token token =>
    simp only [Piece.items, hp, List.mem_singleton] at hitem
    rw [hitem, hp]
    rfl
  | argument number =>
    simp only [Piece.items, hp, List.getD_eq_getElem?_getD] at hitem
    cases harg : args[number]? with
    | none => simp [harg] at hitem
    | some arg =>
      rw [harg] at hitem
      exact h arg (List.mem_of_getElem? harg) item (List.mem_of_mem_drop hitem)

/-- There is no reference among the items that are left. -/
theorem items_eq (e : Expansion) : e.items = e.tokens.map Located.record := by
  have hitems : ∀ item ∈ e.items, item.value.isToken := by
    unfold MacroStream.items
    cases e.body.drop e.index with
    | nil => simp [MacroStream.itemsOf]
    | cons piece ahead =>
      simp only [MacroStream.itemsOf, fill, List.mem_append, List.mem_flatMap]
      rintro item (hitem | ⟨other, -, hitem⟩)
      · exact isToken_of_mem_items e.plain _ piece item hitem
      · exact isToken_of_mem_items e.plain _ other item hitem
  unfold tokens
  generalize e.items = items at hitems ⊢
  induction items with
  | nil => rfl
  | cons item items ih =>
    obtain ⟨hitem, hrest⟩ := List.forall_mem_cons.1 hitems
    obtain ⟨position, value⟩ := item
    cases value with
    | token token => simpa [Located.token?, Located.record] using ih hrest
    | argument number => cases hitem

/-- `peek` shows the first token that is left. -/
theorem peek_fst (e : Expansion) :
    e.peek.1 = .ok ((e.tokens.head?.map Located.value).getD .fileEnd) := by
  rw [peek, MacroStream.peek_fst, items_eq, List.head?_map]
  cases e.tokens.head? <;> rfl

@[simp]
theorem tokens_peek (e : Expansion) : e.peek.2.tokens = e.tokens :=
  congrArg (List.filterMap Located.token?) e.items_settle

/-- `eat` drops the first token that is left. -/
@[simp]
theorem tokens_eat (e : Expansion) : e.eat.tokens = e.tokens.tail := by
  show e.toMacroStream.eat.items.filterMap Located.token? = _
  rw [MacroStream.items_eat e.parked, items_eq, ← List.map_tail, filterMap_record]

theorem position_peek {e : Expansion} {token : Located Token} (h : e.tokens.head? = some token) :
    e.peek.2.position = token.position := by
  have hitem : e.items.head? = some token.record := by rw [items_eq, List.head?_map, h]; rfl
  exact MacroStream.position_peek hitem

/-- Recorded tokens in place of references. -/
theorem fill_record (body : Pieces) (args : List Argument) :
    fill body (args.map (List.map Located.record)) = (substitute body args).map Located.record := by
  rw [fill, substitute, List.map_flatMap]
  congr 1
  funext ⟨position, value⟩
  cases value with
  | token token => rfl
  | argument number =>
    simp only [Piece.items, Piece.tokens, List.getD_eq_getElem?_getD, List.getElem?_map, List.drop_zero]
    cases args[number]? <;> rfl

/-- A use of a macro hands out its body with the arguments in place. -/
theorem tokens_ofMacro (m : Macro) (args : List Argument) :
    (ofMacro m args).tokens = substitute m.body args := by
  rw [tokens, ofMacro, ofRecorded, MacroStream.items_use, Recorded.ofTokens, fill_record,
    filterMap_record]

theorem tokens_ofToken (name : String) (token : Located Token) : (ofToken name token).tokens = [token] :=
  rfl

@[simp]
theorem peek_peek (e : Expansion) : e.peek.2.peek = e.peek := by
  have hsettle : e.settle.settle = e.settle := by
    simp only [settle, (MacroStream.settled_settle _).settle_eq]
  have hpeek : e.settle.peek.1 = e.peek.1 := by rw [peek_fst, peek_fst, ← tokens_peek e]; rfl
  exact Prod.ext hpeek hsettle

end Expansion

end CartScript
