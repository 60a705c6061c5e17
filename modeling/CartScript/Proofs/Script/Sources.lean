import CartScript.Proofs.Token.Joined
import CartScript.Script.Parsing
import Mathlib.Data.List.TakeWhile

/-!
# What sources of tokens have ahead

`Frame.ahead` lists the rounds that are left in a source.  Looking at a token and dropping it is
described by this list: `peek` shows its first round, and `eat` drops it.  What a source is, a file or
a use of a macro, does not change on the way.
-/

namespace CartScript

/-- A token in the middle of a line. -/
def Token.Inline (token : Token) : Prop := token ≠ .lineEnd ∧ token ≠ .fileEnd

namespace Token.Inline

theorem name (text : String) : (Token.name text).Inline := ⟨by simp, by simp⟩

theorem text (text : String) : (Token.text text).Inline := ⟨by simp, by simp⟩

theorem directive (d : Directive) : (Token.directive d).Inline := ⟨by simp, by simp⟩

theorem symbol (s : Symbol) : (Token.symbol s).Inline := ⟨by simp, by simp⟩

end Token.Inline

/-- A fault or a token in the middle of a line. -/
def Reading.Inline (r : Reading) : Prop := r ≠ .ok .lineEnd ∧ r ≠ .ok .fileEnd

theorem Reading.inline_ok {token : Token} : Reading.Inline (.ok token) ↔ token.Inline := by
  simp [Reading.Inline, Token.Inline]

/-! ## Parts of a macro's body -/

namespace Supply

/-- All tokens of a macro's body have a property. -/
def BodyHas (P : Token → Prop) (body : Pieces) : Prop :=
  ∀ piece ∈ body, ∀ token, piece.value = .token token → P token

theorem eq_of_pieceOf {params : Option (List String)} {token found : Token}
    (h : pieceOf params token = .token found) : found = token := by
  unfold pieceOf at h
  split at h
  · split at h
    · cases h
    · exact (Piece.token.inj h).symm
  · exact (Piece.token.inj h).symm

end Supply

/-- The tokens of a use of a macro are those of its body and its arguments. -/
theorem forall_mem_substitute {P : Token → Prop} {body : Pieces} {args : List Argument}
    (hbody : Supply.BodyHas P body) (hargs : ∀ arg ∈ args, ∀ item ∈ arg, P item.value) :
    ∀ item ∈ substitute body args, P item.value := by
  intro item hitem
  obtain ⟨piece, hpiece, hitem⟩ := List.mem_flatMap.1 hitem
  rw [Piece.tokens] at hitem
  split at hitem
  · rename_i token htoken
    obtain rfl := List.mem_singleton.1 hitem
    exact hbody piece hpiece token htoken
  · rename_i index _
    rw [List.getD_eq_getElem?_getD] at hitem
    cases harg : args[index]? with
    | none => simp [harg] at hitem
    | some arg =>
      rw [harg] at hitem
      exact hargs arg (List.mem_of_getElem? harg) item hitem

/-- The use of a macro, with its arguments as tokens. -/
theorem Parsing.call_eq (m : Macro) (count : Nat) : call m count = (do
    let args ← onSupply (Supply.arguments id count #[] #[] 0)
    if args.length ≠ count then throw (.macroArity m.name count args.length)
    else pushFrame (.expansion m.name (.ofMacro m args))) := by
  have hlength (args : List Argument) : (Recorded.ofTokens args).args.length = args.length :=
    List.length_map _
  funext state
  simp only [call, onSupply, Supply.recordedArguments_eq, bind, EStateM.bind]
  rcases state.supply.arguments id count #[] #[] 0 with ⟨fault | args, t⟩
  · rfl
  · simp only [Except.map, hlength]
    rfl

/-! ## A token that was looked at -/

namespace Frame

variable {f : Frame} {fault : LexFault} {token : Token} {e : Expansion}

/-- A token that was looked at stays until it is dropped. -/
theorem peek_peek (h : f.peek.1 = .ok token) : f.peek.2.peek = (.ok token, f.peek.2) := by
  cases f with
  | file route text =>
    have hheld : text.peek.2.held = some token := by
      rw [text.held_peek, show text.peek.1 = .ok token from h]
      rfl
    simp only [peek, TextStream.peek_of_held hheld]
  | expansion name e | replay e =>
    simp only [peek, Expansion.peek_peek]
    exact congrArg (·, _) h

/-- After a fault there is nothing to drop. -/
theorem eat_peek_error (h : f.peek.1 = .error fault) : f.peek.2.eat = f.peek.2 := by
  cases f with
  | file route text =>
    have hheld : text.peek.2.held = none := by
      rw [text.held_peek, show text.peek.1 = .error fault from h]
      rfl
    simp only [peek, eat, TextStream.eat]
    rw [← hheld]
  | expansion name e | replay e => simp [peek, Expansion.peek_fst] at h

/-! ## Rounds -/

/-- The rounds before the end of a source. -/
def ahead (f : Frame) : List TextStream.Round :=
  if _h : Reading.isToken .fileEnd f.peek.1 then []
  else ⟨f.peek.1, f.peek.2.position⟩ :: f.peek.2.eat.ahead
termination_by f.remaining
decreasing_by exact f.remaining_eat_lt (by simpa using _h)

theorem ahead_of_fileEnd (h : f.peek.1 = .ok .fileEnd) : f.ahead = [] := by
  rw [ahead, dif_pos ((Reading.isToken_iff _ _).2 h)]

theorem ahead_of_ne (h : f.peek.1 ≠ .ok .fileEnd) :
    f.ahead = ⟨f.peek.1, f.peek.2.position⟩ :: f.peek.2.eat.ahead := by
  rw [ahead, dif_neg fun hend => h ((Reading.isToken_iff _ _).1 hend)]

theorem peek_of_ahead_nil (h : f.ahead = []) : f.peek.1 = .ok .fileEnd := by
  by_cases hend : f.peek.1 = .ok .fileEnd
  · exact hend
  · rw [ahead_of_ne hend] at h
    cases h

/-- Looking at the first round of a source, and dropping it. -/
theorem peek_of_ahead {r : TextStream.Round} {rs : List TextStream.Round} (h : f.ahead = r :: rs) :
    f.peek.1 = r.outcome ∧ f.peek.2.position = r.position ∧ f.peek.2.eat.ahead = rs ∧
      r.outcome ≠ .ok .fileEnd := by
  by_cases hend : f.peek.1 = .ok .fileEnd
  · rw [ahead_of_fileEnd hend] at h
    cases h
  · rw [ahead_of_ne hend] at h
    obtain ⟨rfl, rfl⟩ := List.cons.inj h
    exact ⟨rfl, rfl, rfl, hend⟩

/-- Looking at a token leaves it there. -/
theorem ahead_peek (h : f.peek.1 = .ok token) : f.peek.2.ahead = f.ahead := by
  have hagain := peek_peek h
  by_cases hend : token = .fileEnd
  · subst hend
    rw [ahead_of_fileEnd h, ahead_of_fileEnd (congrArg Prod.fst hagain)]
  · have hne : f.peek.1 ≠ .ok .fileEnd := by rw [h]; simpa using hend
    have hne' : f.peek.2.peek.1 ≠ .ok .fileEnd := by rw [hagain]; simpa using hend
    rw [ahead_of_ne hne, ahead_of_ne hne', hagain, h]

/-- A fault is passed over by looking at it. -/
theorem ahead_peek_error (h : f.peek.1 = .error fault) :
    f.ahead = ⟨.error fault, f.peek.2.position⟩ :: f.peek.2.ahead := by
  rw [ahead_of_ne (by rw [h]; simp), h, eat_peek_error h]

theorem ahead_file (route : Option Route) (text : TextStream) :
    (file route text).ahead = text.ahead := by
  by_cases hend : text.peek.1 = .ok .fileEnd
  · rw [TextStream.ahead_of_fileEnd hend, ahead_of_fileEnd (f := .file route text) hend]
  · rw [TextStream.ahead_of_ne hend, ahead_of_ne (f := .file route text) hend,
      ← ahead_file route text.peek.2.eat]
    rfl
termination_by text.remaining
decreasing_by exact text.remaining_eat_lt hend

/-- The rounds of tokens. -/
def roundsOf (tokens : List (Located Token)) : List TextStream.Round :=
  tokens.map fun token => ⟨.ok token.value, token.position⟩

/-- Tokens up to one that says that there are no more. -/
def beforeEnd (tokens : List (Located Token)) : List (Located Token) :=
  tokens.takeWhile fun token => token.value != .fileEnd

/-- A use of a macro has the rounds of its tokens ahead. -/
theorem ahead_of_tokens {f : Frame} {e : Expansion} (wrap : Expansion → Frame) (hf : f = wrap e)
    (hpeek : ∀ e, (wrap e).peek = (e.peek.1, wrap e.peek.2))
    (heat : ∀ e, (wrap e).eat = wrap e.eat) (hposition : ∀ e, (wrap e).position = e.position) :
    f.ahead = roundsOf (beforeEnd e.tokens) := by
  subst hf
  cases htokens : e.tokens with
  | nil =>
    have hend : (wrap e).peek.1 = .ok .fileEnd := by rw [hpeek, Expansion.peek_fst, htokens]; rfl
    rw [ahead_of_fileEnd hend]
    rfl
  | cons token tokens =>
    have hfirst : e.peek.1 = .ok token.value := by rw [Expansion.peek_fst, htokens]; rfl
    by_cases htoken : token.value = .fileEnd
    · rw [ahead_of_fileEnd (by rw [hpeek, hfirst, htoken]), beforeEnd,
        List.takeWhile_cons_of_neg (by simp [htoken])]
      rfl
    have hne : (wrap e).peek.1 ≠ .ok .fileEnd := by rw [hpeek, hfirst]; simpa using htoken
    have hnext : (e.peek.2.eat).tokens = tokens := by
      rw [Expansion.tokens_eat, Expansion.tokens_peek, htokens, List.tail_cons]
    have hplace : e.peek.2.position = token.position :=
      Expansion.position_peek (by rw [htokens, List.head?_cons])
    have ih := ahead_of_tokens (f := wrap e.peek.2.eat) wrap rfl hpeek heat hposition
    rw [ahead_of_ne hne, hpeek, hfirst, hposition, hplace, heat, ih, hnext, beforeEnd, beforeEnd,
      List.takeWhile_cons_of_pos (by simpa using htoken)]
    rfl
termination_by e.tokens.length
decreasing_by rw [hnext, htokens]; exact Nat.lt_succ_self _

theorem beforeEnd_eq {tokens : List (Located Token)} (h : ∀ token ∈ tokens, token.value ≠ .fileEnd) :
    beforeEnd tokens = tokens :=
  List.takeWhile_eq_self_iff.2 (by simpa using h)

theorem ahead_expansion (name : String) (h : ∀ token ∈ e.tokens, token.value ≠ .fileEnd) :
    (expansion name e).ahead = roundsOf e.tokens := by
  rw [ahead_of_tokens (expansion name) rfl (fun _ => rfl) (fun _ => rfl) fun _ => rfl, beforeEnd_eq h]

theorem ahead_replay (h : ∀ token ∈ e.tokens, token.value ≠ .fileEnd) :
    (replay e).ahead = roundsOf e.tokens := by
  rw [ahead_of_tokens replay rfl (fun _ => rfl) (fun _ => rfl) fun _ => rfl, beforeEnd_eq h]

/-! ## Blocks -/

/-- What a round is to a block that is skipped: its end, or a part of it at some depth. -/
def skipStep (stopAtElse : Bool) (depth : Nat) : Reading → Bool ⊕ Nat
  | .ok (.directive .ifDefined) | .ok (.directive .ifUndefined) => .inr (depth + 1)
  | .ok (.directive .otherwise) => if depth = 0 && stopAtElse then .inl true else .inr depth
  | .ok (.directive .endIf) => if depth = 0 then .inl false else .inr (depth - 1)
  | _ => .inr depth

/-- What is left of some rounds after a block that is skipped. -/
def skipRounds (stopAtElse : Bool) :
    (depth : Nat) → List TextStream.Round → Except ParseFault Bool × List TextStream.Round
  | _, [] => (.error .unclosedBlock, [])
  | depth, r :: rs =>
    match skipStep stopAtElse depth r.outcome with
    | .inl found => (.ok found, rs)
    | .inr depth => skipRounds stopAtElse depth rs

section Rounds

variable {stopAtElse : Bool} {depth : Nat} {xs : List TextStream.Round}

theorem skipRounds_append_of_ok {found : Bool} {rest : List TextStream.Round}
    (h : skipRounds stopAtElse depth xs = (.ok found, rest)) (tail : List TextStream.Round) :
    skipRounds stopAtElse depth (xs ++ tail) = (.ok found, rest ++ tail) := by
  fun_induction skipRounds stopAtElse depth xs with
  | case1 depth => cases h
  | case2 depth r rs last hstep =>
    cases h
    rw [List.cons_append, skipRounds, hstep]
  | case3 depth r rs deeper hstep ih =>
    rw [List.cons_append, skipRounds, hstep]
    exact ih h

/-- A block that does not end in some rounds is skipped on in those that follow. -/
theorem skipRounds_append_of_error {fault : ParseFault}
    (h : (skipRounds stopAtElse depth xs).1 = .error fault) (tail : List TextStream.Round) :
    ∃ depth', skipRounds stopAtElse depth (xs ++ tail) = skipRounds stopAtElse depth' tail := by
  fun_induction skipRounds stopAtElse depth xs with
  | case1 depth => exact ⟨depth, rfl⟩
  | case2 depth r rs last hstep => cases h
  | case3 depth r rs deeper hstep ih =>
    rw [List.cons_append, skipRounds, hstep]
    exact ih h

theorem skipRounds_suffix (stopAtElse : Bool) (depth : Nat) (xs : List TextStream.Round) :
    (skipRounds stopAtElse depth xs).2 <:+ xs.tail := by
  induction xs generalizing depth with
  | nil => exact List.suffix_rfl
  | cons x xs ih =>
    rw [skipRounds, List.tail_cons]
    cases skipStep stopAtElse depth x.outcome with
    | inl found => exact List.suffix_rfl
    | inr depth => exact (ih depth).trans (List.tail_suffix xs)

theorem length_skipRounds_lt (h : xs ≠ []) :
    (skipRounds stopAtElse depth xs).2.length < xs.length := by
  have hle := (skipRounds_suffix stopAtElse depth xs).length_le
  have hpos := List.length_pos_iff.2 h
  rw [List.length_tail] at hle
  omega

/-- Where no end of the block is found, nothing is left. -/
theorem skipRounds_of_error {fault : ParseFault}
    (h : (skipRounds stopAtElse depth xs).1 = .error fault) :
    skipRounds stopAtElse depth xs = (.error .unclosedBlock, []) := by
  obtain ⟨depth', hskip⟩ := skipRounds_append_of_error h []
  rw [List.append_nil] at hskip
  rw [hskip]
  rfl

end Rounds

/-- Skipping a block goes round by round. -/
theorem skipBlock_of_ne (h : f.peek.1 ≠ .ok .fileEnd) (stopAtElse : Bool) (depth : Nat) :
    f.skipBlock stopAtElse depth =
      match skipStep stopAtElse depth f.peek.1 with
      | .inl found => (.ok found, f.peek.2.eat)
      | .inr depth => f.peek.2.eat.skipBlock stopAtElse depth := by
  have hend : ¬Reading.isToken .fileEnd f.peek.1 = true := by simpa using h
  rw [skipBlock.eq_def]
  simp only [dif_neg hend]
  generalize f.peek.1 = reading
  unfold skipStep
  split
  · rfl
  · rfl
  · split
    · rfl
    · rfl
  · split
    · rfl
    · rfl
  · simp only

theorem skipBlock_of_fileEnd (h : f.peek.1 = .ok .fileEnd) (stopAtElse : Bool) (depth : Nat) :
    f.skipBlock stopAtElse depth = (.error .unclosedBlock, f.peek.2) := by
  rw [skipBlock.eq_def, dif_pos ((Reading.isToken_iff _ _).2 h)]

/-! ## What a source is -/

@[simp] theorem isFile_peek (f : Frame) : f.peek.2.isFile = f.isFile := by cases f <;> rfl
@[simp] theorem isFile_eat (f : Frame) : f.eat.isFile = f.isFile := by cases f <;> rfl
@[simp] theorem expands_peek (f : Frame) : f.peek.2.expands = f.expands := by cases f <;> rfl
@[simp] theorem expands_eat (f : Frame) : f.eat.expands = f.expands := by cases f <;> rfl
@[simp] theorem route?_peek (f : Frame) : f.peek.2.route? = f.route? := by cases f <;> rfl
@[simp] theorem route?_eat (f : Frame) : f.eat.route? = f.route? := by cases f <;> rfl

@[simp]
theorem isUseOf_peek (f : Frame) (name : String) : f.peek.2.isUseOf name = f.isUseOf name := by
  cases f <;> rfl

@[simp]
theorem isUseOf_eat (f : Frame) (name : String) : f.eat.isUseOf name = f.isUseOf name := by
  cases f <;> rfl

theorem isUseOf_of_isFile (h : f.isFile = true) (name : String) : f.isUseOf name = false := by
  cases f with
  | file route text => rfl
  | expansion name e | replay e => cases h

/-- Sources of which one is what is left of the other. -/
structure Akin (f g : Frame) : Prop where
  isFile : f.isFile = g.isFile
  expands : f.expands = g.expands
  route? : f.route? = g.route?
  isUseOf : ∀ name, f.isUseOf name = g.isUseOf name

theorem Akin.peek (f : Frame) : f.peek.2.Akin f := by constructor <;> simp
theorem Akin.eat (f : Frame) : f.eat.Akin f := by constructor <;> simp

theorem Akin.trans {g h : Frame} (hfg : f.Akin g) (hgh : g.Akin h) : f.Akin h :=
  ⟨hfg.isFile.trans hgh.isFile, hfg.expands.trans hgh.expands, hfg.route?.trans hgh.route?,
    fun name => (hfg.isUseOf name).trans (hgh.isUseOf name)⟩

/-- Skipping a block goes by the rounds ahead. -/
theorem skipBlock_ahead (stopAtElse : Bool) (depth : Nat) (f : Frame) :
    (f.skipBlock stopAtElse depth).1 = (skipRounds stopAtElse depth f.ahead).1 ∧
      (f.skipBlock stopAtElse depth).2.ahead = (skipRounds stopAtElse depth f.ahead).2 ∧
      (f.skipBlock stopAtElse depth).2.Akin f := by
  by_cases hend : f.peek.1 = .ok .fileEnd
  · rw [skipBlock_of_fileEnd hend, ahead_of_fileEnd hend, ahead_peek hend, ahead_of_fileEnd hend]
    exact ⟨rfl, rfl, Akin.peek f⟩
  · have hakin : f.peek.2.eat.Akin f := (Akin.eat _).trans (Akin.peek f)
    rw [skipBlock_of_ne hend, ahead_of_ne hend, skipRounds]
    cases skipStep stopAtElse depth f.peek.1 with
    | inl found => exact ⟨rfl, rfl, hakin⟩
    | inr depth =>
      obtain ⟨houtcome, hahead, hsame⟩ := skipBlock_ahead stopAtElse depth f.peek.2.eat
      exact ⟨houtcome, hahead, hsame.trans hakin⟩
termination_by f.remaining
decreasing_by exact remaining_eat_lt f hend

end Frame

namespace Supply

variable {s : Supply}

/-! ## All sources -/

theorem peek_of_lineEnded (h : s.lineEnded = true) : s.peek = (.ok .lineEnd, s) := by
  rw [peek, if_pos h]

/-- After a line that was ended only its end is next. -/
theorem lineEnded_of_peek {token : Token} (h : s.peek.1 = .ok token) (htoken : token ≠ .lineEnd) :
    s.lineEnded = false := by
  rw [← Bool.not_eq_true]
  intro hline
  rw [peek_of_lineEnded hline] at h
  exact htoken (Except.ok.inj h).symm

theorem peek_of_not (h : s.lineEnded = false) : s.peek = peekStack s.root s.stack := by
  rw [peek, if_neg (by simp [h])]

theorem peek_peekStack {token : Token} {root : Frame} {stack : List Frame}
    (h : (peekStack root stack).1 = .ok token) :
    (peekStack root stack).2.peek = (.ok token, (peekStack root stack).2) := by
  induction stack with
  | nil =>
    have hroot : root.peek.1 = .ok token := h
    simp only [peekStack, peek, Bool.false_eq_true, if_false, Frame.peek_peek hroot]
  | cons f stack ih =>
    by_cases hend : Reading.isToken .fileEnd f.peek.1 = true
    · by_cases hfile : f.isFile = true
      · rw [peekStack, if_pos hend, if_pos hfile] at h ⊢
        rw [peek_of_lineEnded rfl, ← h]
      · rw [peekStack, if_pos hend, if_neg hfile] at h ⊢
        exact ih h
    · rw [peekStack, if_neg hend] at h ⊢
      have hagain := Frame.peek_peek (f := f) h
      have hend' : ¬Reading.isToken .fileEnd f.peek.2.peek.1 = true := by
        rw [hagain, ← h]
        exact hend
      rw [peek_of_not rfl, peekStack, if_neg hend', hagain]

/-- A token that was looked at stays until it is dropped. -/
theorem peek_peek {token : Token} (h : s.peek.1 = .ok token) :
    s.peek.2.peek = (.ok token, s.peek.2) := by
  cases hline : s.lineEnded with
  | true =>
    rw [peek_of_lineEnded hline] at h ⊢
    rw [peek_of_lineEnded hline, ← h]
  | false =>
    rw [peek_of_not hline] at h ⊢
    exact peek_peekStack h

/-! ## Uses of macros on top of files -/

/-- Puts sources on top. -/
def put (s : Supply) (uses : List Frame) : Supply := { s with stack := uses ++ s.stack }

theorem top_put_cons (s : Supply) (f : Frame) (uses : List Frame) : (s.put (f :: uses)).top = f := rfl

theorem isUsing_put (s : Supply) (uses : List Frame) (name : String) :
    (s.put uses).isUsing name = (uses.any (Frame.isUseOf name) || s.isUsing name) := by
  simp [isUsing, frames, put, List.any_append]

theorem eat_put_cons (hline : s.lineEnded = false) (f : Frame) (uses : List Frame) :
    (s.put (f :: uses)).eat = s.put (f.eat :: uses) := by
  simp [eat, hline, mapTop, put]

/-- The end of the line comes before the uses. -/
theorem eat_put_of_lineEnded (hline : s.lineEnded = true) (uses : List Frame) :
    (s.put uses).eat = s.eat.put uses := by
  simp [eat, hline, put]

theorem peek_put_cons (hline : s.lineEnded = false) {f : Frame} (h : f.peek.1 ≠ .ok .fileEnd)
    (uses : List Frame) : (s.put (f :: uses)).peek = (f.peek.1, s.put (f.peek.2 :: uses)) := by
  have hend : ¬Reading.isToken .fileEnd f.peek.1 = true := by simpa using h
  have hline' : (s.put (f :: uses)).lineEnded = false := hline
  rw [peek_of_not hline']
  simp only [put, List.cons_append, peekStack, if_neg hend, hline]

/-- A use that has no more tokens is taken off. -/
theorem peek_put_cons_end (hline : s.lineEnded = false) {f : Frame} (hfile : f.isFile = false)
    (h : f.peek.1 = .ok .fileEnd) (uses : List Frame) :
    (s.put (f :: uses)).peek = (s.put uses).peek := by
  have hline' : (s.put (f :: uses)).lineEnded = false := hline
  have hline'' : (s.put uses).lineEnded = false := hline
  rw [peek_of_not hline', peek_of_not hline'']
  simp [put, peekStack, h, hfile]

/-! ## Only the topmost source -/

/-- Replaces the topmost source. -/
def withTop (s : Supply) (f : Frame) : Supply := s.mapTop fun _ => f

theorem withTop_top (s : Supply) : s.withTop s.top = s := by
  obtain ⟨root, stack, lineEnded⟩ := s
  cases stack with
  | nil | cons f stack => rfl

@[simp]
theorem top_withTop (s : Supply) (f : Frame) : (s.withTop f).top = f := by
  obtain ⟨root, stack, lineEnded⟩ := s
  cases stack with
  | nil | cons f stack => rfl

@[simp]
theorem lineEnded_withTop (s : Supply) (f : Frame) : (s.withTop f).lineEnded = s.lineEnded := by
  obtain ⟨root, stack, lineEnded⟩ := s
  cases stack with
  | nil | cons f stack => rfl

@[simp]
theorem withTop_withTop (s : Supply) (f g : Frame) : (s.withTop f).withTop g = s.withTop g := by
  obtain ⟨root, stack, lineEnded⟩ := s
  cases stack with
  | nil | cons f stack => rfl

theorem eat_withTop (hline : s.lineEnded = false) (f : Frame) :
    (s.withTop f).eat = s.withTop f.eat := by
  obtain ⟨root, stack, lineEnded⟩ := s
  obtain rfl : lineEnded = false := hline
  cases stack with
  | nil | cons f stack => rfl

/-- The topmost source is read while it has tokens, and the script itself in any case. -/
theorem peek_withTop (hline : s.lineEnded = false) {f : Frame}
    (h : f.peek.1 ≠ .ok .fileEnd ∨ s.stack = []) :
    (s.withTop f).peek = (f.peek.1, s.withTop f.peek.2) := by
  obtain ⟨root, stack, lineEnded⟩ := s
  obtain rfl : lineEnded = false := hline
  cases stack with
  | nil => rfl
  | cons g stack =>
    have hend : ¬Reading.isToken .fileEnd f.peek.1 = true := by simpa using h
    simp [withTop, mapTop, peek, peekStack, hend]

end Supply

end CartScript
