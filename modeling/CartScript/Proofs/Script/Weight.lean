import CartScript.Proofs.Script.Sources
import CartScript.Script.Parse
import Mathlib.Data.List.Perm.Subperm
import Mathlib.Data.Multiset.DershowitzManna

/-!
# How much of a script is left

A use of a macro may put more tokens on top than it takes, but a macro is not replaced inside its own
use.  Each token has a rank, which is lower the more uses it stands in, and replacing a use puts tokens
of a lower rank in the place of one.  The ranks of all tokens are the weight of the sources, and there
is no endless descent of weights.

The arguments of a macro may be taken from below the use in which its name stands.  Then it is the
closing parenthesis that has a higher rank than what is put on top.
-/

namespace CartScript

/-! ## What is left of a source -/

namespace Frame

/-- What is left of a source after tokens were looked at and dropped. -/
inductive Left (f : Frame) : Frame → Prop
  | refl : Left f f
  | peek {g : Frame} (h : Left f g) : Left f g.peek.2
  | eat {g : Frame} (h : Left f g) : Left f g.eat

variable {f g : Frame}

theorem Left.akin (h : f.Left g) : g.Akin f := by
  induction h with
  | refl => exact ⟨rfl, rfl, rfl, fun _ => rfl⟩
  | peek _ ih => exact (Akin.peek _).trans ih
  | eat _ ih => exact (Akin.eat _).trans ih

theorem remaining_eat_le (f : Frame) : f.eat.remaining ≤ f.remaining := by
  cases f with
  | file route text => simp [eat, remaining, TextStream.eat, TextStream.remaining]
  | expansion name e | replay e => simp [eat, remaining]

theorem Left.remaining_le (h : f.Left g) : g.remaining ≤ f.remaining := by
  induction h with
  | refl => exact Nat.le_refl _
  | peek _ ih => exact (remaining_peek_le _).trans ih
  | eat _ ih => exact (remaining_eat_le _).trans ih

theorem Left.trans {h : Frame} (hfg : f.Left g) (hgh : g.Left h) : f.Left h := by
  induction hgh with
  | refl => exact hfg
  | peek _ ih => exact ih.peek
  | eat _ ih => exact ih.eat

theorem left_skipBlock (stopAtElse : Bool) (depth : Nat) (f : Frame) :
    f.Left (f.skipBlock stopAtElse depth).2 := by
  by_cases hend : f.peek.1 = .ok .fileEnd
  · rw [skipBlock_of_fileEnd hend]
    exact .peek .refl
  · have hnext : f.Left f.peek.2.eat := .eat (.peek .refl)
    rw [skipBlock_of_ne hend]
    split
    · exact hnext
    · exact hnext.trans (left_skipBlock stopAtElse _ f.peek.2.eat)
termination_by f.remaining
decreasing_by exact remaining_eat_lt f hend

/-- The name of the macro that a source is the use of. -/
def useName? : Frame → Option String
  | .expansion name _ => some name
  | _ => none

theorem useName?_eq_some_iff {name : String} : f.useName? = some name ↔ f.isUseOf name = true := by
  cases f <;> simp [useName?, isUseOf]

theorem Akin.useName?_eq (h : f.Akin g) : f.useName? = g.useName? := by
  ext name
  rw [useName?_eq_some_iff, useName?_eq_some_iff, h.isUseOf name]

end Frame

/-! ## What is left of all sources -/

namespace Supply

/-- What is left of the sources after tokens were taken from them. -/
inductive Consumes (s : Supply) : Supply → Prop
  | refl : Consumes s s
  /-- A source is taken off. -/
  | pop {root f : Frame} {stack : List Frame} (h : Consumes s { root, stack := f :: stack }) :
      Consumes s { root, stack }
  /-- Tokens are taken from the topmost source. -/
  | top {root f g : Frame} {stack : List Frame} (h : Consumes s { root, stack := f :: stack })
      (hleft : f.Left g) : Consumes s { root, stack := g :: stack }
  /-- Tokens are taken from the script itself. -/
  | root {root root' : Frame} (h : Consumes s { root }) (hleft : root.Left root') :
      Consumes s { root := root' }

theorem Consumes.trans {s t u : Supply} (hst : s.Consumes t) (htu : t.Consumes u) : s.Consumes u := by
  induction htu with
  | refl => exact hst
  | pop _ ih => exact ih.pop
  | top _ hleft ih => exact ih.top hleft
  | root _ hleft ih => exact ih.root hleft

/-- There is no included file, and no line was ended by one. -/
structure Plain (s : Supply) : Prop where
  lineEnded : s.lineEnded = false
  stack : ∀ f ∈ s.stack, f.isFile = false

theorem Consumes.plain {s t : Supply} (h : s.Consumes t) (hs : s.Plain) : t.Plain := by
  induction h with
  | refl => exact hs
  | pop _ ih => exact ⟨rfl, fun f hf => ih.stack f (.tail _ hf)⟩
  | top _ hleft ih =>
    obtain ⟨hfirst, hrest⟩ := List.forall_mem_cons.1 ih.stack
    exact ⟨rfl, List.forall_mem_cons.2 ⟨hleft.akin.isFile.trans hfirst, hrest⟩⟩
  | root _ _ ih => exact ⟨rfl, by simp⟩

theorem consumes_peekStack (root : Frame) {stack : List Frame} (h : ∀ f ∈ stack, f.isFile = false) :
    Consumes { root, stack } (peekStack root stack).2 := by
  induction stack with
  | nil => exact .root .refl (.peek .refl)
  | cons f stack ih =>
    obtain ⟨hfile, hrest⟩ := List.forall_mem_cons.1 h
    rw [peekStack]
    split
    · rw [if_neg (by simp [hfile])]
      exact (Consumes.pop .refl).trans (ih hrest)
    · exact .top .refl (.peek .refl)

variable {s t : Supply}

theorem Plain.eq (h : s.Plain) : s = { root := s.root, stack := s.stack } := by
  obtain ⟨root, stack, lineEnded⟩ := s
  obtain rfl : lineEnded = false := h.lineEnded
  rfl

theorem Plain.consumes_peek (h : s.Plain) : s.Consumes s.peek.2 := by
  rw [peek_of_not h.lineEnded, h.eq]
  exact consumes_peekStack s.root h.stack

theorem Plain.consumes_withTop (h : s.Plain) {f : Frame} (hleft : s.top.Left f) :
    s.Consumes (s.withTop f) := by
  obtain ⟨root, stack, lineEnded⟩ := s
  obtain rfl : lineEnded = false := h.lineEnded
  cases stack with
  | nil => exact .root .refl hleft
  | cons g stack => exact .top .refl hleft

theorem Plain.consumes_eat (h : s.Plain) : s.Consumes s.eat := by
  have heat : s.eat = s.withTop s.top.eat := by
    rw [← eat_withTop h.lineEnded, withTop_top]
  rw [heat]
  exact h.consumes_withTop (.eat .refl)

theorem Plain.consumes_next (h : s.Plain) : s.Consumes s.peek.2.eat :=
  h.consumes_peek.trans (h.consumes_peek.plain h).consumes_eat

theorem Plain.consumes_skipBlock (h : s.Plain) (stopAtElse : Bool) :
    s.Consumes (s.skipBlock stopAtElse).2 :=
  h.consumes_withTop (Frame.left_skipBlock stopAtElse 0 s.top)

theorem consumes_skipLine (s : Supply) (h : s.Plain) : s.Consumes s.skipLine := by
  by_cases hend : Reading.isToken .fileEnd s.peek.1 = true
  · rw [skipLine, dif_pos hend]
    exact h.consumes_peek
  · rw [skipLine, dif_neg hend]
    split
    · exact h.consumes_next
    · exact h.consumes_next.trans (consumes_skipLine s.peek.2.eat (h.consumes_next.plain h))
termination_by s.remaining
decreasing_by exact s.remaining_eat_lt (by simpa using hend)

end Supply

/-! ## Tokens that may come -/

/-- A token whose name is one of the given ones, and that includes no file. -/
def Token.Known (names : List String) (token : Token) : Prop :=
  (∀ name, token = .name name → name ∈ names) ∧ token ≠ .directive .includeScript

variable {names : List String}

theorem Token.known_fileEnd : Token.fileEnd.Known names := by simp [Known]

/-- All tokens of a text are known: the one that is held and those that follow it. -/
def TextStream.Holds (names : List String) (text : TextStream) : Prop :=
  (∀ token, text.held = some token → token.Known names) ∧
    ∀ round ∈ text.eat.ahead, ∀ token, round.outcome = .ok token → token.Known names

namespace TextStream

variable {text : TextStream}

theorem eat_of_held_none (h : text.held = none) : text.eat = text := by
  obtain ⟨file, rest, place, start, held⟩ := text
  obtain rfl : held = none := h
  rfl

theorem ahead_of_rest_nil (hheld : text.held = none) (hrest : text.rest = []) :
    text.ahead = [] := by
  refine ahead_of_fileEnd ?_
  have hpeek : text.peek = text.advance := by rw [peek, hheld]
  rw [hpeek]
  rcases text.remaining_advance with hlt | ⟨_, hend, _⟩
  · simp [hrest] at hlt
  · exact hend

theorem Holds.peek (h : text.Holds names) : text.peek.2.Holds names := by
  cases hheld : text.held with
  | some token => rwa [peek_of_held hheld]
  | none =>
    have hrounds := h.2
    rw [eat_of_held_none hheld] at hrounds
    by_cases hend : text.peek.1 = .ok .fileEnd
    · have hadvance : text.peek = text.advance := by rw [TextStream.peek, hheld]
      refine ⟨?_, ?_⟩
      · intro token htoken
        rw [held_peek, hend] at htoken
        obtain rfl := Option.some.inj htoken
        exact Token.known_fileEnd
      · have hnil : text.peek.2.eat.ahead = [] :=
          ahead_of_rest_nil rfl (by rw [hadvance] at hend ⊢; exact rest_of_fileEnd hend)
        simp [hnil]
    · rw [ahead_of_ne hend] at hrounds
      obtain ⟨hfirst, hrest⟩ := List.forall_mem_cons.1 hrounds
      refine ⟨?_, hrest⟩
      intro token htoken
      rw [held_peek] at htoken
      exact hfirst token (Except.toOption_eq_some_iff.1 htoken)

theorem Holds.eat (h : text.Holds names) : text.eat.Holds names :=
  ⟨by simp [TextStream.eat], h.2⟩

theorem Holds.known (h : text.Holds names) {token : Token} (htoken : text.peek.1 = .ok token) :
    token.Known names := by
  refine h.peek.1 token ?_
  rw [held_peek, htoken]
  rfl

end TextStream

/-- All tokens of a source are known. -/
def Frame.Holds (names : List String) : Frame → Prop
  | .file _ text => text.Holds names
  | .expansion _ e | .replay e => ∀ token ∈ e.tokens, token.value.Known names

namespace Frame

theorem Holds.peek {f : Frame} (h : f.Holds names) : f.peek.2.Holds names := by
  cases f with
  | file route text => exact TextStream.Holds.peek h
  | expansion name e | replay e => simpa [Frame.peek, Holds] using h

theorem Holds.eat {f : Frame} (h : f.Holds names) : f.eat.Holds names := by
  have htail {e : Expansion} (h : ∀ token ∈ e.tokens, token.value.Known names) :
      ∀ token ∈ e.eat.tokens, token.value.Known names := by
    intro token htoken
    rw [Expansion.tokens_eat] at htoken
    exact h token (List.mem_of_mem_tail htoken)
  cases f with
  | file route text => exact TextStream.Holds.eat h
  | expansion name e | replay e => exact htail h

theorem Holds.left {f g : Frame} (h : f.Holds names) (hleft : f.Left g) : g.Holds names := by
  induction hleft with
  | refl => exact h
  | peek _ ih => exact ih.peek
  | eat _ ih => exact ih.eat

theorem Holds.known {f : Frame} (h : f.Holds names) {token : Token} (htoken : f.peek.1 = .ok token) :
    token.Known names := by
  have huse {e : Expansion} (h : ∀ token ∈ e.tokens, token.value.Known names)
      (htoken : e.peek.1 = .ok token) : token.Known names := by
    rw [Expansion.peek_fst] at htoken
    cases htokens : e.tokens with
    | nil =>
      rw [htokens] at htoken
      obtain rfl : Token.fileEnd = token := Except.ok.inj htoken
      exact Token.known_fileEnd
    | cons first rest =>
      rw [htokens] at htoken h
      obtain rfl : first.value = token := Except.ok.inj htoken
      exact h first (.head _)
  cases f with
  | file route text => exact TextStream.Holds.known h htoken
  | expansion name e | replay e => exact huse h htoken

end Frame

namespace Supply

variable {s t : Supply}

/-- All tokens of the sources are known. -/
structure Holds (names : List String) (s : Supply) : Prop extends s.Plain where
  root : s.root.Holds names
  sources : ∀ f ∈ s.stack, f.Holds names

theorem Holds.consumes (h : s.Holds names) (hst : s.Consumes t) : t.Holds names := by
  induction hst with
  | refl => exact h
  | pop hpop ih =>
    exact ⟨hpop.pop.plain h.toPlain, ih.root, fun f hf => ih.sources f (.tail _ hf)⟩
  | top htop hleft ih =>
    obtain ⟨hfirst, hrest⟩ := List.forall_mem_cons.1 ih.sources
    exact ⟨(htop.top hleft).plain h.toPlain, ih.root, List.forall_mem_cons.2 ⟨hfirst.left hleft, hrest⟩⟩
  | root hroot hleft ih => exact ⟨(hroot.root hleft).plain h.toPlain, ih.root.left hleft, by simp⟩

variable {current : Array (Located Token)} {token : Token}

theorem known_of_peekStack {root : Frame} {stack : List Frame} (hroot : root.Holds names)
    (hstack : ∀ f ∈ stack, f.isFile = false ∧ f.Holds names)
    (htoken : (peekStack root stack).1 = .ok token) : token.Known names := by
  induction stack with
  | nil => exact hroot.known htoken
  | cons f stack ih =>
    obtain ⟨⟨hfile, hfirst⟩, hrest⟩ := List.forall_mem_cons.1 hstack
    rw [peekStack] at htoken
    split at htoken
    · rw [if_neg (by simp [hfile])] at htoken
      exact ih hrest htoken
    · exact hfirst.known htoken

theorem Holds.known (h : s.Holds names) (htoken : s.peek.1 = .ok token) : token.Known names := by
  rw [peek_of_not h.lineEnded] at htoken
  exact known_of_peekStack h.root (fun f hf => ⟨h.stack f hf, h.sources f hf⟩) htoken

/-! ## Arguments and bodies -/

/-- What comes of reading the arguments of a macro: tokens with a property, up to a closing
    parenthesis.  The sources are as told before each token. -/
def ArgumentsRead (P : Token → Prop) (before : Supply → Prop) :
    Except ParseFault (List Argument) × Supply → Prop
  | (.ok args, t) => (∀ arg ∈ args, ∀ item ∈ arg, P item.value) ∧
      ∃ s, before s ∧ s.peek.1 = .ok (.symbol .closeParen) ∧ t = s.peek.2.eat
  | (.error fault, t) => Parsing.isFatal fault = false ∧ ∃ s, before s ∧ t = s.peek.2

/-- What comes of reading the body of a macro. -/
def BodyRead (P : Token → Prop) (before : Supply → Prop) :
    Except ParseFault Pieces × Supply → Prop
  | (.ok body, t) => BodyHas P body ∧ ∃ s, before s ∧ t = s.peek.2
  | (.error fault, t) => Parsing.isFatal fault = false ∧ ∃ s, before s ∧ t = s.peek.2

section Recorded

variable {P : Token → Prop} {before : Supply → Prop} (hnext : ∀ s, before s → before s.peek.2.eat)
  (hread : ∀ s token, before s → s.peek.1 = .ok token → token.Inline → P token)

include hnext hread

theorem argumentsRead (expected : Nat) {done : Array Argument} (depth : Nat) (s : Supply)
    (h : before s) (hdone : ∀ arg ∈ done, ∀ item ∈ arg, P item.value)
    (hcurrent : ∀ item ∈ current, P item.value) :
    ArgumentsRead P before (s.arguments id expected done current depth) := by
  have hlast {done : Array Argument} {current : Array (Located Token)}
      (hdone : ∀ arg ∈ done, ∀ item ∈ arg, P item.value) (hcurrent : ∀ item ∈ current, P item.value) :
      ∀ arg ∈ done.push current.toList, ∀ item ∈ arg, P item.value := by
    refine Array.forall_mem_push.2 ⟨?_, hdone⟩
    exact fun item hitem => hcurrent item (Array.mem_toList_iff.1 hitem)
  have hpush {s : Supply} {token : Token} {current : Array (Located Token)} (h : before s)
      (htoken : s.peek.1 = .ok token) (hinline : token.Inline)
      (hcurrent : ∀ item ∈ current, P item.value) (place : Position) :
      ∀ item ∈ current.push ⟨place, token⟩, P item.value :=
    Array.forall_mem_push.2 ⟨hread s token h htoken hinline, hcurrent⟩
  -- Most tokens go to the argument in progress; a comma or the closing parenthesis ends it.
  fun_induction arguments id expected done current depth s with
  | case1 done current depth s hend
  | case2 done current depth s hend here fault herror
  | case3 done current depth s hend here htoken => exact ⟨rfl, s, h, rfl⟩
  | case4 done current depth s hend here next htoken item ih
  | case5 done current depth s hend here next htoken item ih
  | case6 done current depth s hend here next hdepth htoken item ih =>
    exact ih (hnext s h) hdone (hpush h htoken ⟨by simp, by simp⟩ hcurrent _)
  | case7 done current depth s hend here next hdepth hempty htoken =>
    exact ⟨by simp, s, h, htoken, rfl⟩
  | case8 done current depth s hend here next hdepth hempty htoken =>
    refine ⟨?_, s, h, htoken, rfl⟩
    exact fun arg harg => hlast hdone hcurrent arg (Array.mem_toList_iff.1 harg)
  | case9 done current depth s hend here next htoken item ih =>
    exact ih (hnext s h) hdone (hpush h htoken ⟨by simp, by simp⟩ hcurrent _)
  | case10 done current s hend here next htoken ih =>
    exact ih (hnext s h) (hlast hdone hcurrent) (by simp)
  | case11 done current depth s hend here next hdepth htoken item ih =>
    exact ih (hnext s h) hdone (hpush h htoken ⟨by simp, by simp⟩ hcurrent _)
  | case12 done current depth s hend here next token htoken item hline _ _ _ _ _ ih =>
    rw [htoken, Reading.isToken_iff] at hend
    exact ih (hnext s h) hdone
      (hpush h htoken ⟨hline, fun heq => hend (congrArg Except.ok heq)⟩ hcurrent _)

theorem bodyRead (params : Option (List String)) {done : Array (Located Piece)} (s : Supply)
    (h : before s) (hdone : BodyHas P done.toList) : BodyRead P before (s.body params done) := by
  fun_induction body params done s with
  | case1 done s hend => exact ⟨hdone, s, h, rfl⟩
  | case2 done s hend here fault herror => exact ⟨rfl, s, h, rfl⟩
  | case3 done s hend here htoken => exact ⟨hdone, s, h, rfl⟩
  | case4 done s hend here token hline htoken ih =>
    refine ih (hnext s h) ?_
    intro piece hpiece found hfound
    rw [Array.toList_push] at hpiece
    rcases List.mem_append.1 hpiece with hpiece | hpiece
    · exact hdone piece hpiece found hfound
    · -- A token of the body is a parameter, or stands for itself.
      obtain rfl := List.mem_singleton.1 hpiece
      rw [eq_of_pieceOf hfound]
      rw [htoken, Reading.isToken_iff] at hend
      exact hread s token h htoken ⟨hline, fun heq => hend (congrArg Except.ok heq)⟩

end Recorded

theorem Holds.argumentsRead (h : s.Holds names) (expected : Nat) :
    ArgumentsRead (Token.Known names) s.Consumes (s.arguments id expected #[] #[] 0) :=
  Supply.argumentsRead (fun _ hu => hu.trans (h.consumes hu).consumes_next)
    (fun _ _ hu htoken _ => (h.consumes hu).known htoken) expected 0 s .refl (by simp) (by simp)

theorem Holds.bodyRead (h : s.Holds names) (params : Option (List String)) :
    BodyRead (Token.Known names) s.Consumes (s.body params #[]) :=
  Supply.bodyRead (fun _ hu => hu.trans (h.consumes hu).consumes_next)
    (fun _ _ hu htoken _ => (h.consumes hu).known htoken) params s .refl (by simp [BodyHas])

end Supply

/-! ## Weights -/

/-- One weight comes before another one: some elements are taken away, and others, each of them less
    than one that was taken away, are put in their place. -/
abbrev Lighter (a b : Multiset Nat) : Prop := Multiset.IsDershowitzMannaLT a b

theorem lighter_wellFounded : WellFounded Lighter := Multiset.wellFounded_isDershowitzMannaLT

/-- Elements in the place of one that is greater. -/
theorem lighter_of_drop {kept put whole : Multiset Nat} {rank : Nat} (h : kept + {rank} ≤ whole)
    (hput : ∀ n ∈ put, n < rank) : Lighter (kept + put) whole := by
  obtain ⟨rest, rfl⟩ := Multiset.le_iff_exists_add.1 h
  refine ⟨kept, put, {rank} + rest, by simp, rfl, by rw [add_assoc], ?_⟩
  exact fun n hn => ⟨rank, by simp, hput n hn⟩

theorem eq_or_lighter_of_le {a b : Multiset Nat} (h : a ≤ b) : a = b ∨ Lighter a b := by
  obtain ⟨rest, rfl⟩ := Multiset.le_iff_exists_add.1 h
  by_cases hrest : rest = 0
  · exact .inl (by rw [hrest, add_zero])
  · exact .inr ⟨a, 0, rest, hrest, by rw [add_zero], rfl, by simp⟩

namespace Supply

variable {s t : Supply} {root f : Frame} {stack : List Frame} {bound : Nat}

/-- The macros that are being used, the innermost first. -/
def uses (stack : List Frame) : List String := stack.filterMap Frame.useName?

/-- The rank of the tokens of the topmost source, lower in each use.  A token that was handed back is
    not replaced, and has the least rank. -/
def rank (bound : Nat) (stack : List Frame) : Nat :=
  if stack.head?.all Frame.expands then bound - (uses stack).length else 0

/-- The ranks of the tokens of some sources. -/
def stackWeight (bound : Nat) : List Frame → Multiset Nat
  | [] => 0
  | f :: stack => Multiset.replicate f.remaining (rank bound (f :: stack)) + stackWeight bound stack

/-- The ranks of all tokens. -/
def weight (bound : Nat) (s : Supply) : Multiset Nat :=
  stackWeight bound s.stack + Multiset.replicate s.root.remaining bound

variable {fault : LexFault} {name : String} {e : Expansion} {g : Frame}

theorem uses_cons_of_akin (h : g.Akin f) : uses (g :: stack) = uses (f :: stack) := by
  rw [uses, uses, List.filterMap_cons, List.filterMap_cons, h.useName?_eq]

theorem rank_cons_of_akin (h : g.Akin f) : rank bound (g :: stack) = rank bound (f :: stack) := by
  have hexpands : (g :: stack).head?.all Frame.expands = (f :: stack).head?.all Frame.expands :=
    h.expands
  rw [rank, rank, uses_cons_of_akin h, hexpands]

theorem uses_suffix_of_consumes (h : s.Consumes t) : uses t.stack <:+ uses s.stack := by
  induction h with
  | refl => exact List.suffix_refl _
  | @pop root f stack _ ih =>
    refine List.IsSuffix.trans ?_ ih
    rw [uses, uses]
    exact (List.suffix_cons f stack).filterMap _
  | @top root f g stack _ hleft ih =>
    show uses (g :: stack) <:+ _
    rw [uses_cons_of_akin hleft.akin]
    exact ih
  | root _ _ _ => exact List.nil_suffix

/-- Taking tokens adds nothing. -/
theorem weight_le_of_consumes (h : s.Consumes t) : weight bound t ≤ weight bound s := by
  induction h with
  | refl => exact le_refl _
  | @pop root f stack _ ih =>
    refine le_trans ?_ ih
    simp only [weight, stackWeight]
    exact add_le_add_left (Multiset.le_add_left _ _) _
  | @top root f g stack _ hleft ih =>
    refine le_trans ?_ ih
    simp only [weight, stackWeight, rank_cons_of_akin hleft.akin]
    exact add_le_add_left (add_le_add_left (Multiset.replicate_mono _ hleft.remaining_le) _) _
  | @root root root' _ hleft ih =>
    refine le_trans ?_ ih
    simp only [weight, stackWeight]
    exact add_le_add_right (Multiset.replicate_mono _ hleft.remaining_le) _

theorem replicate_add_singleton_le {m n r : Nat} (h : m < n) :
    Multiset.replicate m r + {r} ≤ Multiset.replicate n r := by
  rw [add_comm, Multiset.singleton_add, ← Multiset.replicate_succ]
  exact Multiset.replicate_mono _ h

theorem weight_eat_peekStack (hstack : ∀ f ∈ stack, f.isFile = false)
    (hend : (peekStack root stack).1 ≠ .ok .fileEnd) :
    weight bound (peekStack root stack).2.eat + {rank bound (peekStack root stack).2.stack} ≤
      weight bound { root, stack } := by
  induction stack with
  | nil =>
    have hlt := root.remaining_eat_lt hend
    simpa [peekStack, eat, mapTop, weight, stackWeight, rank, uses] using replicate_add_singleton_le hlt
  | cons f stack ih =>
    obtain ⟨hfile, hrest⟩ := List.forall_mem_cons.1 hstack
    rw [peekStack] at hend ⊢
    split
    · -- The source has come to its end, and the token is one of those below.
      rename_i hf
      simp only [hf, if_true, hfile, Bool.false_eq_true, if_false] at hend ⊢
      exact (ih hrest hend).trans (weight_le_of_consumes (.pop .refl))
    · -- The tokens of a source have one rank, and there is one fewer of them.
      rename_i hf
      have hlt := f.remaining_eat_lt (by simpa using hf)
      have hakin : f.peek.2.eat.Akin f := (Frame.Akin.eat _).trans (Frame.Akin.peek f)
      show stackWeight bound (f.peek.2.eat :: stack) + Multiset.replicate root.remaining bound +
        {rank bound (f.peek.2 :: stack)} ≤ _
      simp only [weight, stackWeight, rank_cons_of_akin hakin, rank_cons_of_akin (Frame.Akin.peek f)]
      rw [add_right_comm, add_right_comm (Multiset.replicate _ _)]
      exact add_le_add_left (add_le_add_left (replicate_add_singleton_le hlt) _) _

/-- A token that is taken takes its rank away. -/
theorem weight_eat_peek (h : s.Plain) (hend : s.peek.1 ≠ .ok .fileEnd) :
    weight bound s.peek.2.eat + {rank bound s.peek.2.stack} ≤ weight bound s := by
  rw [peek_of_not h.lineEnded] at hend ⊢
  rw [h.eq]
  exact weight_eat_peekStack h.stack hend

/-- After a fault there is nothing to drop. -/
theorem eat_peekStack_error (hstack : ∀ f ∈ stack, f.isFile = false)
    (h : (peekStack root stack).1 = .error fault) :
    (peekStack root stack).2.eat = (peekStack root stack).2 := by
  induction stack with
  | nil =>
    have hroot := Frame.eat_peek_error (f := root) h
    simp [peekStack, eat, mapTop, hroot]
  | cons f stack ih =>
    obtain ⟨hfile, hrest⟩ := List.forall_mem_cons.1 hstack
    rw [peekStack] at h ⊢
    split
    · rename_i hf
      simp only [hf, if_true, hfile, Bool.false_eq_true, if_false] at h ⊢
      exact ih hrest h
    · rename_i hf
      simp only [hf, Bool.false_eq_true, if_false] at h
      simp [eat, mapTop, Frame.eat_peek_error h]

/-- A fault that is looked at takes its rank away. -/
theorem weight_peek_error (h : s.Plain) (herror : s.peek.1 = .error fault) :
    weight bound s.peek.2 + {rank bound s.peek.2.stack} ≤ weight bound s := by
  -- The lexer passes over what it could not read, so this is a token that was dropped.
  have heat : s.peek.2.eat = s.peek.2 := by
    rw [peek_of_not h.lineEnded] at herror ⊢
    exact eat_peekStack_error h.stack herror
  have hdrop : weight bound s.peek.2.eat + {rank bound s.peek.2.stack} ≤ weight bound s :=
    weight_eat_peek h (by simp [herror])
  rwa [heat] at hdrop

theorem rank_eat (h : s.lineEnded = false) : rank bound s.eat.stack = rank bound s.stack := by
  obtain ⟨root, stack, lineEnded⟩ := s
  obtain rfl : lineEnded = false := h
  cases stack with
  | nil => rfl
  | cons f stack => exact rank_cons_of_akin (.eat f)

/-! ## Sources in order -/

/-- The sources of a script: their tokens are known, each macro is used once, and a token that was
    handed back is on top. -/
structure Orderly (names : List String) (s : Supply) : Prop extends s.Holds names where
  once : (uses s.stack).Nodup
  within : ∀ name ∈ uses s.stack, name ∈ names
  below : ∀ f ∈ s.stack.tail, f.expands = true

theorem Orderly.consumes (h : s.Orderly names) (hst : s.Consumes t) : t.Orderly names := by
  have huses := uses_suffix_of_consumes hst
  refine ⟨h.toHolds.consumes hst, h.once.sublist huses.sublist,
    fun name hname => h.within name (huses.mem hname), ?_⟩
  induction hst with
  | refl => exact h.below
  | pop hpop ih =>
    exact fun f hf => ih (uses_suffix_of_consumes hpop) f (List.mem_of_mem_tail hf)
  | top htop _ ih => exact ih (uses_suffix_of_consumes htop)
  | root _ _ _ => simp

/-- Nothing was handed back. -/
def Expands (s : Supply) : Prop := ∀ f ∈ s.stack, f.expands = true

theorem Orderly.expands (h : s.Orderly names) (htop : s.expands = true) : s.Expands := by
  intro f hf
  cases hstack : s.stack with
  | nil => simp [hstack] at hf
  | cons g stack =>
    have hbelow := h.below
    rw [hstack] at hf hbelow
    rcases List.mem_cons.1 hf with rfl | hf
    · simpa [Supply.expands, top, hstack] using htop
    · exact hbelow f hf

theorem Expands.consumes (h : s.Expands) (hst : s.Consumes t) : t.Expands := by
  induction hst with
  | refl => exact h
  | pop _ ih => exact fun f hf => ih f (.tail _ hf)
  | top _ hleft ih =>
    obtain ⟨hfirst, hrest⟩ := List.forall_mem_cons.1 ih
    exact List.forall_mem_cons.2 ⟨hleft.akin.expands.trans hfirst, hrest⟩
  | root _ _ _ => simp [Expands]

theorem Expands.rank_eq (h : s.Expands) : rank bound s.stack = bound - (uses s.stack).length := by
  rw [rank, if_pos]
  cases hstack : s.stack with
  | nil => rfl
  | cons f stack => exact h f (by simp [hstack])

theorem not_mem_uses (h : s.isUsing name = false) : name ∉ uses s.stack := by
  intro hname
  obtain ⟨f, hf, hname⟩ := List.mem_filterMap.1 hname
  rw [Frame.useName?_eq_some_iff] at hname
  have husing : s.isUsing name = true :=
    List.any_eq_true.2 ⟨f, List.mem_append_left _ hf, hname⟩
  simp [h] at husing

/-- The number of macros bounds the uses that stand in each other. -/
theorem Orderly.length_uses_le (h : s.Orderly names) : (uses s.stack).length ≤ names.length :=
  (h.once.subperm h.within).length_le

/-- A use of a macro that is not being used may be put on top. -/
theorem Orderly.push_use (h : s.Orderly names) (hexpands : s.Expands) (hname : name ∈ names)
    (hfresh : name ∉ uses s.stack) (htokens : ∀ item ∈ e.tokens, item.value.Known names) :
    (s.push (.expansion name e)).Orderly names where
  lineEnded := h.lineEnded
  stack := List.forall_mem_cons.2 ⟨rfl, h.stack⟩
  root := h.root
  sources := List.forall_mem_cons.2 ⟨htokens, h.sources⟩
  once := List.nodup_cons.2 ⟨hfresh, h.once⟩
  within := List.forall_mem_cons.2 ⟨hname, h.within⟩
  below := hexpands

/-- A token may be handed back. -/
theorem Orderly.push_replay (h : s.Orderly names) (hexpands : s.Expands)
    (htokens : ∀ item ∈ e.tokens, item.value.Known names) : (s.push (.replay e)).Orderly names where
  lineEnded := h.lineEnded
  stack := List.forall_mem_cons.2 ⟨rfl, h.stack⟩
  root := h.root
  sources := List.forall_mem_cons.2 ⟨htokens, h.sources⟩
  once := h.once
  within := h.within
  below := hexpands

theorem weight_push (s : Supply) (f : Frame) : weight bound (s.push f) =
    weight bound s + Multiset.replicate f.remaining (rank bound (f :: s.stack)) := by
  simp only [weight, push, stackWeight]
  rw [add_assoc, add_comm]

/-- The tokens of a new use have a lower rank than what is below them. -/
theorem Orderly.rank_use_lt (h : s.Orderly names) (hexpands : s.Expands) (name : String)
    (e : Expansion) :
    rank (names.length + 1) (.expansion name e :: s.stack) < rank (names.length + 1) s.stack := by
  have hle := h.length_uses_le
  have huse : rank (names.length + 1) (.expansion name e :: s.stack) =
      names.length + 1 - ((uses s.stack).length + 1) := rfl
  rw [huse, hexpands.rank_eq]
  omega

theorem Orderly.rank_pos (h : s.Orderly names) (hexpands : s.Expands) :
    0 < rank (names.length + 1) s.stack := by
  have hle := h.length_uses_le
  rw [hexpands.rank_eq]
  omega

end Supply

end CartScript
