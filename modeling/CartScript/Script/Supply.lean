import CartScript.Script.Fault
import CartScript.Script.Macro
import CartScript.Token.Stream

/-!
# Where the tokens of a script come from

Tokens come from a stack of sources.  At its bottom is the script itself; an included file and the
use of a macro each put another source on top.  A source that has no more tokens is taken off and
reading goes on below it.  The end of an included file ends the line.

`Supply.remaining` bounds how many tokens can still be taken, as long as nothing is put on top.
-/

namespace CartScript

/-- A source of tokens. -/
inductive Frame where
  /-- A script, with its place if it was read from a file. -/
  | file (route : Option Route) (text : TextStream)
  /-- The use of the macro of this name. -/
  | expansion (name : String) (expansion : Expansion)
  /-- A token handed back, which is not expanded. -/
  | replay (expansion : Expansion)
  deriving Repr, DecidableEq, Inhabited

namespace Frame

def isFile : Frame → Bool
  | .file _ _ => true
  | _ => false

/-- Whether names from this source may be uses of macros. -/
def expands : Frame → Bool
  | .replay _ => false
  | _ => true

/-- Whether the source is a use of the macro of this name. -/
def isUseOf (name : String) : Frame → Bool
  | .expansion active _ => active == name
  | _ => false

/-- The place of a file. -/
def route? : Frame → Option Route
  | .file route _ => route
  | _ => none

def peek : Frame → Reading × Frame
  | .file route text => (text.peek.1, .file route text.peek.2)
  | .expansion name e => (e.peek.1, .expansion name e.peek.2)
  | .replay e => (e.peek.1, .replay e.peek.2)

def eat : Frame → Frame
  | .file route text => .file route text.eat
  | .expansion name e => .expansion name e.eat
  | .replay e => .replay e.eat

def position : Frame → Position
  | .file _ text => text.position
  | .expansion _ e => e.position
  | .replay e => e.position

/-- How much of the source is left. -/
def remaining : Frame → Nat
  | .file _ text => text.remaining
  | .expansion _ e => e.tokens.length
  | .replay e => e.tokens.length

theorem remaining_peek_le (f : Frame) : f.peek.2.remaining ≤ f.remaining := by
  cases f <;> simp [peek, remaining, TextStream.remaining_peek_le]

theorem remaining_eat_lt (f : Frame) (h : f.peek.1 ≠ .ok .fileEnd) :
    f.peek.2.eat.remaining < f.remaining := by
  have use (e : Expansion) (h : e.peek.1 ≠ .ok .fileEnd) :
      e.peek.2.eat.tokens.length < e.tokens.length := by
    rw [Expansion.peek_fst] at h
    cases ht : e.tokens with
    | nil => simp [ht] at h
    | cons token tokens => simp [ht]
  cases f with
  | file route text => exact text.remaining_eat_lt (by simpa [peek] using h)
  | expansion name e => exact use e (by simpa [peek] using h)
  | replay e => exact use e (by simpa [peek] using h)

/-- Skips a conditional block up to its end, or up to its `#else` if `stopAtElse` is set, and says
    whether it is the `#else` that was found.  Blocks inside it are skipped whole; `depth` counts
    those that are open. -/
def skipBlock (stopAtElse : Bool) (depth : Nat) (f : Frame) : Except ParseFault Bool × Frame :=
  if _h : Reading.isToken .fileEnd f.peek.1 then (.error .unclosedBlock, f.peek.2)
  else
    let next := f.peek.2.eat
    match f.peek.1 with
    | .ok (.directive .ifDefined) | .ok (.directive .ifUndefined) =>
      next.skipBlock stopAtElse (depth + 1)
    | .ok (.directive .otherwise) =>
      if depth = 0 && stopAtElse then (.ok true, next) else next.skipBlock stopAtElse depth
    | .ok (.directive .endIf) =>
      if depth = 0 then (.ok false, next) else next.skipBlock stopAtElse (depth - 1)
    | _ => next.skipBlock stopAtElse depth
termination_by f.remaining
decreasing_by all_goals exact remaining_eat_lt f (by simpa using _h)

end Frame

/-- The sources of a script. -/
structure Supply where
  /-- The script itself. -/
  root : Frame
  /-- The sources on top of it, the topmost first. -/
  stack : List Frame := []
  /-- Whether the line has just been ended by the end of an included file. -/
  lineEnded : Bool := false
  deriving Repr, DecidableEq, Inhabited

namespace Supply

/-- All sources, the topmost first. -/
def frames (s : Supply) : List Frame := s.stack ++ [s.root]

/-- The topmost source. -/
def top (s : Supply) : Frame := s.stack.head?.getD s.root

/-- Changes the topmost source. -/
def mapTop (s : Supply) (change : Frame → Frame) : Supply :=
  match s.stack with
  | f :: stack => { s with stack := change f :: stack }
  | [] => { s with root := change s.root }

/-- Puts a source on top. -/
def push (s : Supply) (f : Frame) : Supply := { s with stack := f :: s.stack }

/-- The position of the token looked at last. -/
def position (s : Supply) : Position := s.top.position

/-- Whether a name from the topmost source may be the use of a macro. -/
def expands (s : Supply) : Bool := s.top.expands

/-- Whether a macro is being used. -/
def isUsing (s : Supply) (name : String) : Bool := s.frames.any (Frame.isUseOf name)

/-- Looks at the next token, taking off the sources that have none. -/
def peekStack (root : Frame) : List Frame → Reading × Supply
  | [] => (root.peek.1, { root := root.peek.2 })
  | f :: stack =>
    if Reading.isToken .fileEnd f.peek.1 then
      if f.isFile then (.ok .lineEnd, { root, stack, lineEnded := true }) else peekStack root stack
    else (f.peek.1, { root, stack := f.peek.2 :: stack })

/-- The next token, as written. -/
def peek (s : Supply) : Reading × Supply :=
  if s.lineEnded then (.ok .lineEnd, s) else peekStack s.root s.stack

/-- Drops the next token. -/
def eat (s : Supply) : Supply :=
  if s.lineEnded then { s with lineEnded := false } else s.mapTop Frame.eat

/-- A bound on the tokens that a stack of sources still gives. -/
def stackRemaining : List Frame → Nat
  | [] => 0
  | f :: stack => f.remaining + 1 + stackRemaining stack

/-- A bound on the tokens that can still be taken. -/
def remaining (s : Supply) : Nat :=
  s.root.remaining + stackRemaining s.stack + if s.lineEnded then 1 else 0

theorem remaining_eat_peekStack_lt (root : Frame) (stack : List Frame)
    (h : (peekStack root stack).1 ≠ .ok .fileEnd) :
    (peekStack root stack).2.eat.remaining < root.remaining + stackRemaining stack := by
  induction stack with
  | nil => simpa [peekStack, eat, mapTop, remaining, stackRemaining] using root.remaining_eat_lt h
  | cons f stack ih =>
    rw [peekStack] at h ⊢
    split
    · rename_i hf
      simp only [hf, if_true] at h
      split
      · simp [eat, remaining, stackRemaining]
      · rename_i hfile
        have := ih (by simpa [hfile] using h)
        rw [stackRemaining]
        omega
    · rename_i hf
      have := f.remaining_eat_lt (by simpa using hf)
      simp [eat, mapTop, remaining, stackRemaining]
      omega

/-- Dropping a token leaves less than there was. -/
theorem remaining_eat_lt (s : Supply) (h : s.peek.1 ≠ .ok .fileEnd) :
    s.peek.2.eat.remaining < s.remaining := by
  unfold peek at h ⊢
  split
  · rename_i hl
    simp [eat, remaining, hl]
  · rename_i hl
    simp only [hl] at h
    simpa [remaining, hl] using remaining_eat_peekStack_lt s.root s.stack h

/-- Skips the rest of the line. -/
def skipLine (s : Supply) : Supply :=
  if _h : Reading.isToken .fileEnd s.peek.1 then s.peek.2
  else if Reading.isToken .lineEnd s.peek.1 then s.peek.2.eat
  else s.peek.2.eat.skipLine
termination_by s.remaining
decreasing_by exact s.remaining_eat_lt (by simpa using _h)

/-- The arguments of a macro after the opening parenthesis, with each token recorded.  Commas inside
    parentheses and brackets belong to an argument; `depth` counts those that are open.  A macro without
    parameters is given no argument by nothing at all. -/
def arguments {α : Type} (record : Located Token → α) (expected : Nat) (done : Array (List α))
    (current : Array α) (depth : Nat) (s : Supply) : Except ParseFault (List (List α)) × Supply :=
  if _h : Reading.isToken .fileEnd s.peek.1 then (.error .unclosedArguments, s.peek.2)
  else
    let here := s.peek.2
    let next := here.eat
    match s.peek.1 with
    | .error fault => (.error (.lex fault), here)
    | .ok token =>
      let item := record ⟨here.position, token⟩
      match token with
      | .lineEnd => (.error .unclosedArguments, here)
      | .symbol .openParen | .symbol .openBracket =>
        next.arguments record expected done (current.push item) (depth + 1)
      | .symbol .closeParen =>
        if depth ≠ 0 then next.arguments record expected done (current.push item) (depth - 1)
        else if current.isEmpty ∧ done.isEmpty ∧ expected = 0 then (.ok [], next)
        else (.ok (done.push current.toList).toList, next)
      | .symbol .closeBracket =>
        next.arguments record expected done (current.push item) (depth - 1)
      | .symbol .comma =>
        if depth = 0 then next.arguments record expected (done.push current.toList) #[] depth
        else next.arguments record expected done (current.push item) depth
      | _ => next.arguments record expected done (current.push item) depth
termination_by s.remaining
decreasing_by all_goals exact s.remaining_eat_lt (by simpa using _h)

/-- How tokens are recorded makes no difference to which ones are. -/
theorem arguments_record (expected : Nat) (done : Array Argument) (current : Array (Located Token))
    (depth : Nat) (s : Supply) :
    s.arguments Located.record expected (done.map (List.map Located.record))
        (current.map Located.record) depth =
      ((s.arguments id expected done current depth).1.map (List.map (List.map Located.record)),
        (s.arguments id expected done current depth).2) := by
  -- Both sides take the same branch, since they look at the same tokens.
  fun_induction arguments id expected done current depth s with
  | case8 done current depth s hend here next hdepth hempty htoken =>
    rw [arguments]
    simp_all [Except.map]
    exact if_neg fun h => hempty h.1 h.2.1 h.2.2
  | _ =>
    rw [arguments]
    simp_all [Except.map] <;> first | rfl | assumption

/-- What was recorded comes from tokens. -/
theorem exists_of_arguments {expected : Nat} {s t : Supply}
    {outcome : Except ParseFault (List Pieces)}
    (h : s.arguments Located.record expected #[] #[] 0 = (outcome, t)) :
    ∃ tokens, s.arguments id expected #[] #[] 0 = (tokens, t) ∧
      outcome = tokens.map (List.map (List.map Located.record)) := by
  have hrecord := arguments_record expected #[] #[] 0 s
  rw [Array.map_empty, Array.map_empty, h] at hrecord
  obtain ⟨houtcome, rfl⟩ := Prod.mk.inj hrecord
  exact ⟨_, rfl, houtcome⟩

theorem plain_of_arguments {expected : Nat} {s t : Supply} {args : List Pieces}
    (h : s.arguments Located.record expected #[] #[] 0 = (.ok args, t)) :
    ∀ arg ∈ args, ∀ item ∈ arg, item.value.isToken := by
  obtain ⟨tokens, -, houtcome⟩ := exists_of_arguments h
  cases tokens with
  | error fault => cases houtcome
  | ok tokens => exact Except.ok.inj houtcome ▸ plain_record tokens

/-- The arguments as the use of a macro takes them. -/
def recordedArguments (expected : Nat) (s : Supply) : Except ParseFault Recorded × Supply :=
  match h : s.arguments Located.record expected #[] #[] 0 with
  | (.ok args, t) => (.ok ⟨args, plain_of_arguments h⟩, t)
  | (.error fault, t) => (.error fault, t)

/-- The recorded arguments are those of the tokens. -/
theorem recordedArguments_eq (expected : Nat) (s : Supply) :
    s.recordedArguments expected = ((s.arguments id expected #[] #[] 0).1.map Recorded.ofTokens,
      (s.arguments id expected #[] #[] 0).2) := by
  unfold recordedArguments
  split
  all_goals
    rename_i h
    obtain ⟨tokens, htokens, houtcome⟩ := exists_of_arguments h
    rw [htokens]
    cases tokens <;> simp_all [Except.map, Recorded.ofTokens]

/-- What a token is in the body of a macro: a parameter's name stands for its argument. -/
def pieceOf (params : Option (List String)) (token : Token) : Piece :=
  match params, token with
  | some params, .name name =>
    match params.idxOf? name with
    | some index => .argument index
    | none => .token token
  | _, _ => .token token

/-- The body of a macro: the rest of the line, whose end stays. -/
def body (params : Option (List String)) (done : Array (Located Piece)) (s : Supply) :
    Except ParseFault Pieces × Supply :=
  if _h : Reading.isToken .fileEnd s.peek.1 then (.ok done.toList, s.peek.2)
  else
    let here := s.peek.2
    match s.peek.1 with
    | .error fault => (.error (.lex fault), here)
    | .ok .lineEnd => (.ok done.toList, here)
    | .ok token => here.eat.body params (done.push ⟨here.position, pieceOf params token⟩)
termination_by s.remaining
decreasing_by exact s.remaining_eat_lt (by simpa using _h)

/-- Skips a conditional block in the topmost source. -/
def skipBlock (s : Supply) (stopAtElse : Bool) : Except ParseFault Bool × Supply :=
  let (outcome, f) := s.top.skipBlock stopAtElse 0
  (outcome, s.mapTop fun _ => f)

end Supply

end CartScript
