import CartScript.Proofs.Script.Sound
import CartScript.Proofs.Script.Sources
import CartScript.Script.Parse

/-!
# Two scripts side by side

Two scripts that have the same tokens up to the end of the line are read alike up to there, whatever
they have after it.  `Beside` is what such a pair promises of its sources; from it follows, for one
computation after the other, that both sides have the same result and stay a pair.

A relation `near` says how positions may differ.  Within a line the sources are related by `Within`,
and between statements by `Between`.
-/

namespace CartScript

/-! ## Data that is the same but for positions -/

section Near

variable {α : Type} (near : Position → Position → Prop)

/-- The same thing at positions that may differ. -/
def Located.Near (a b : Located α) : Prop := near a.position b.position ∧ a.value = b.value

/-- Arguments with the same tokens. -/
structure ArgumentNear (a b : Argument) : Prop where
  tokens : List.Forall₂ (Located.Near near) a b
  inline : ∀ token ∈ a, token.value.Inline

/-- Macros with the same tokens. -/
structure Macro.Near (m n : Macro) : Prop where
  name : m.name = n.name
  params : m.params = n.params
  body : List.Forall₂ (Located.Near near) m.body n.body
  inline : ∀ piece ∈ m.body, ∀ token, piece.value = .token token → token.Inline

/-- Dictionaries with the same names and related values. -/
def Dictionary.Near (R : α → α → Prop) (d e : Dictionary α) : Prop :=
  List.Forall₂ (fun a b => a.1 = b.1 ∧ R a.2 b.2) d.entries e.entries

end Near

theorem isEmpty_eq_of_forall₂ {α β : Type} {R : α → β → Prop} {a : Array α} {b : Array β}
    (h : List.Forall₂ R a.toList b.toList) : a.isEmpty = b.isEmpty := by
  obtain ⟨as⟩ := a
  obtain ⟨bs⟩ := b
  rw [Bool.eq_iff_iff, Array.isEmpty_iff, Array.isEmpty_iff]
  have hlength := h.length_eq
  simp only [Array.mk.injEq, ← List.length_eq_zero_iff] at hlength ⊢
  rw [hlength]

theorem ArgumentNear.push {near : Position → Position → Prop}
    {current current' : Array (Located Token)}
    (h : ArgumentNear near current.toList current'.toList) {p q : Position} (hpq : near p q)
    {token : Token} (htoken : token.Inline) :
    ArgumentNear near (current.push ⟨p, token⟩).toList (current'.push ⟨q, token⟩).toList := by
  constructor
  · simp only [Array.toList_push]
    exact List.rel_append h.tokens (.cons ⟨hpq, rfl⟩ .nil)
  · intro item hitem
    simp only [Array.toList_push, List.mem_append, List.mem_singleton] at hitem
    rcases hitem with hitem | rfl
    · exact h.inline item hitem
    · exact htoken

namespace Dictionary.Near

variable {α : Type} {R : α → α → Prop} {d e : Dictionary α}

theorem find? (h : d.Near R e) (name : String) : Option.Rel R (d.find? name) (e.find? name) := by
  obtain ⟨entries⟩ := d
  obtain ⟨entries'⟩ := e
  simp only [Near, Dictionary.find?] at h ⊢
  induction h with
  | nil => exact .none
  | @cons a b as bs hab _ ih =>
    obtain ⟨key, value⟩ := a
    obtain ⟨key', value'⟩ := b
    obtain ⟨rfl, hvalue⟩ : key = key' ∧ R value value' := hab
    rw [List.lookup_cons, List.lookup_cons]
    split
    · exact .some hvalue
    · exact ih

theorem contains (h : d.Near R e) (name : String) : d.contains name = e.contains name := by
  have hfind := h.find? name
  simp only [Dictionary.contains]
  generalize d.find? name = a at hfind ⊢
  generalize e.find? name = b at hfind ⊢
  cases hfind with
  | none | some => rfl

theorem put (h : d.Near R e) (name : String) {a b : α} (hab : R a b) :
    (d.put name a).Near R (e.put name b) := by
  have hreplace {as bs : List (String × α)}
      (h : List.Forall₂ (fun a b => a.1 = b.1 ∧ R a.2 b.2) as bs) :
      List.Forall₂ (fun a b => a.1 = b.1 ∧ R a.2 b.2) (replace name a as) (replace name b bs) := by
    induction h with
    | nil => exact .nil
    | @cons x y xs ys hxy hrest ih =>
      obtain ⟨key, old⟩ := x
      obtain ⟨key', old'⟩ := y
      obtain ⟨rfl, hold⟩ : key = key' ∧ R old old' := hxy
      simp only [replace]
      split
      · exact .cons ⟨rfl, hab⟩ hrest
      · exact .cons ⟨rfl, hold⟩ ih
  simp only [Dictionary.put, ← h.contains name]
  split
  · exact hreplace h
  · exact List.rel_append h (.cons ⟨rfl, hab⟩ .nil)

theorem erase (h : d.Near R e) (name : String) : (d.erase name).Near R (e.erase name) := by
  obtain ⟨entries⟩ := d
  obtain ⟨entries'⟩ := e
  simp only [Near, Dictionary.erase] at h ⊢
  induction h with
  | nil => exact .nil
  | @cons a b as bs hab _ ih =>
    simp only [List.filter_cons, ← hab.1]
    split
    · exact .cons hab ih
    · exact ih

end Dictionary.Near

/-- What a diagnostic says, wherever it says it. -/
def Diagnostic.said (d : Diagnostic) : Severity × String := (d.severity, d.text)

/-! ## Sources side by side -/

/-- Positions and statements that stand for each other. -/
structure Likeness where
  near : Position → Position → Prop
  same : Located Statement → Located Statement → Prop

/-- What is read at some positions stands for each other. -/
def Likeness.Stated (A : Likeness) (env : Environment) (p q : Position) : Prop :=
  ∀ statement : Statement, (env.registry.Consistent → statement.Sound env.registry) →
    A.same ⟨p, statement⟩ ⟨q, statement⟩

/-- How two readers go together.  The left one has said more before the right one started, and has
    more blocks open. -/
structure Account extends Likeness where
  heard : Diagnostic → Diagnostic → Prop
  heard_of_near : ∀ {p q : Position}, near p q → ∀ severity text,
    heard ⟨severity, .script p, text⟩ ⟨severity, .script q, text⟩
  deeper : Nat := 0
  program : List (Located Statement) := []
  notes : List Diagnostic := []

/-- The same is said, wherever it is said. -/
def Likeness.account (A : Likeness) : Account where
  toLikeness := A
  heard d e := d.said = e.said
  heard_of_near _ _ _ := rfl

namespace Account

/-- The same may be noted at two positions. -/
def Noted (A : Account) (p q : Position) : Prop :=
  ∀ severity text, A.heard ⟨severity, .script p, text⟩ ⟨severity, .script q, text⟩

/-- Readers in step, with their sources related in some way. -/
structure Along (A : Account) (X : Supply → Supply → Prop) (s t : ParseState) : Prop where
  supply : X s.supply t.supply
  macros : s.macros.Near (Macro.Near A.near) t.macros
  openBlocks : s.openBlocks = t.openBlocks + A.deeper
  statements : List.Forall₂ A.same s.statements.toList (A.program ++ t.statements.toList)
  diagnostics : List.Forall₂ A.heard s.diagnostics.toList (A.notes ++ t.diagnostics.toList)

/-- Readers that have said the same. -/
abbrev Told (A : Account) : ParseState → ParseState → Prop := A.Along fun _ _ => True

variable {A : Account} {X Y : Supply → Supply → Prop} {s t : ParseState}

theorem Along.weaken (h : A.Along X s t) (hXY : X s.supply t.supply → Y s.supply t.supply) :
    A.Along Y s t :=
  { h with supply := hXY h.supply }

/-- Only the sources of the readers change. -/
theorem Along.move {supply supply' : Supply} (h : A.Along X s t) (hnext : Y supply supply') :
    A.Along Y { s with supply } { t with supply := supply' } :=
  { h with supply := hnext }

theorem Along.level (h : A.Along X s t) (hlevel : A.deeper = 0) : s.openBlocks = t.openBlocks := by
  rw [h.openBlocks, hlevel, Nat.add_zero]

end Account

/-- A `#define` that was looked at, with a name and a parenthesis after it. -/
structure Supply.Defines (name : String) (s : Supply) : Prop where
  define : s.peek = (.ok (.directive .define), s)
  name : s.eat.peek.1 = .ok (.name name)
  paren : s.eat.peek.2.eat.peek.1 = .ok (.symbol .openParen)

/-- A parenthesis follows the name of a macro on both sides or on none. -/
def Supply.DefinesAlike (s t : Supply) : Prop :=
  ∀ name, s.Defines name → t.Defines name →
    (Position.Follows name s.eat.peek.2.position s.eat.peek.2.eat.peek.2.position ↔
      Position.Follows name t.eat.peek.2.position t.eat.peek.2.eat.peek.2.position)

/-- Sources that are read side by side. -/
structure Beside extends Account where
  /-- Within a line. -/
  Within : Supply → Supply → Prop
  /-- After the end of a line. -/
  After : Supply → Supply → Prop
  /-- Between statements. -/
  Between : Supply → Supply → Prop
  /-- What a macro of this name may be. -/
  Known : String → Macro → Prop
  /-- Which macros may be used. -/
  Free : Macro → Prop
  /-- Where a directive may stand. -/
  Apt : Directive → Supply → Prop
  /-- Where the right side is too late to go on after a fault. -/
  Late : Supply → Prop
  level : ∀ {d s}, Apt d s → d = .otherwise ∨ d = .endIf → deeper = 0
  stands : ∀ {s t}, Within s t ∨ After s t → toAccount.Noted s.position t.position
  between : ∀ {s t}, Within s t → Between s t
  after : ∀ {s t}, After s t → Between s t
  peek : ∀ {s t}, Within s t → s.peek.1 = t.peek.1 ∧ Within s.peek.2 t.peek.2
  eat : ∀ {s t}, Within s t → Reading.Inline s.peek.1 → Within s.peek.2.eat t.peek.2.eat
  eatLine : ∀ {s t}, Within s t → s.peek.1 = .ok .lineEnd → After s.peek.2.eat t.peek.2.eat
  atEnd : ∀ {s t}, Within s t → s.peek.1 = .ok .fileEnd → After s.peek.2 t.peek.2
  position : ∀ {s t} {token : Token}, Within s t → s.peek.1 = .ok token → token.Inline →
    near s.peek.2.position t.peek.2.position
  follows : ∀ {s t}, Within s t → Apt .define s → s.DefinesAlike t
  uses : ∀ {s t} {name : String}, Within s t → s.peek = (.ok (.name name), s) →
    t.peek = (.ok (.name name), t) → s.expands = t.expands ∧ s.isUsing name = t.isUsing name
  free : ∀ {s t} {name : String} {m : Macro}, Within s t → s.peek = (.ok (.name name), s) →
    Known name m → s.expands = true → s.isUsing name = false → Free m
  /-- A macro without parameters is used in the place of its name. -/
  pushUse : ∀ {s t} {name : String} {m n : Macro}, Free m → m.params = none → Within s t →
    s.peek = (.ok (.name name), s) → t.peek = (.ok (.name name), t) → m.Near near n →
    Within (s.eat.push (.expansion m.name (.ofMacro m [])))
      (t.eat.push (.expansion n.name (.ofMacro n [])))
  pushCall : ∀ {s t} {m n : Macro} {args args' : List Argument}, Free m → m.params ≠ none →
    Within s t → m.Near near n → List.Forall₂ (ArgumentNear near) args args' →
    Within (s.push (.expansion m.name (.ofMacro m args)))
      (t.push (.expansion n.name (.ofMacro n args')))
  pushReplay : ∀ {s t} {m : Macro} {a b : Located Token}, Free m → m.params ≠ none → Within s t →
    a.Near near b → a.value = .name m.name →
    Within (s.push (.replay (.ofToken m.name a))) (t.push (.replay (.ofToken m.name b)))

namespace Beside

variable (B : Beside)

/-- Readers in step within a line. -/
structure Reads (s t : ParseState) : Prop extends B.Along B.Within s t where
  known : ∀ name m, s.macros.find? name = some m → B.Known name m

/-- Readers in step that have looked at a token. -/
structure Facing (token : Token) (s t : ParseState) : Prop extends B.Reads s t where
  left : s.supply.peek = (.ok token, s.supply)
  right : t.supply.peek = (.ok token, t.supply)

/-- Readers in step at a directive that may stand there. -/
def Meets (d : Directive) (s t : ParseState) : Prop :=
  B.Facing (.directive d) s t ∧ B.Apt d s.supply

/-- Sources that are in step again after the line. -/
def Resumes (s t : Supply) : Prop :=
  B.Noted s.position t.position ∧ (B.Late t ∨ B.Between s.skipLine t.skipLine)

/-- Readers that are in step again after the line. -/
abbrev Recovers : ParseState → ParseState → Prop := B.Along B.Resumes

/-- Results that agree. -/
inductive Alike {α : Type} (Q : α → ParseState → ParseState → Prop) :
    EStateM.Result ParseFault ParseState α → EStateM.Result ParseFault ParseState α → Prop
  | ok {a : α} {s t : ParseState} (h : Q a s t) : Alike Q (.ok a s) (.ok a t)
  | error {fault : ParseFault} {s t : ParseState} (h : B.Recovers s t) :
      Alike Q (.error fault s) (.error fault t)

/-- Computations that agree where readers are in step. -/
def Agree {α : Type} (P : ParseState → ParseState → Prop) (p q : Parsing α)
    (Q : α → ParseState → ParseState → Prop) : Prop :=
  ∀ s t, P s t → B.Alike Q (p s) (q t)

/-- Readers in step stay in step. -/
abbrev Steady {α : Type} (p : Parsing α) : Prop := B.Agree B.Reads p p fun _ => B.Reads

/-- Readers in step stay in step, and what they have read is as told. -/
abbrev Gives {α : Type} (p : Parsing α) (post : α → Prop) : Prop :=
  B.Agree B.Reads p p fun a s t => B.Reads s t ∧ post a

variable {B} {α β : Type} {P R : ParseState → ParseState → Prop}

variable {Q Q' : α → ParseState → ParseState → Prop} {s t : ParseState}
  {r r' : EStateM.Result ParseFault ParseState α} {p q : Parsing α} {X Y : Supply → Supply → Prop}
  {f g : α → Parsing β} {B' : Beside}

theorem Reads.move {supply supply' : Supply} (h : B.Reads s t) (hnext : B.Within supply supply') :
    B.Reads { s with supply } { t with supply := supply' } :=
  ⟨h.toAlong.move hnext, h.known⟩

theorem Alike.get {a b : α} (h : B.Alike Q (.ok a s) (.ok b t)) : Q a s t := by
  cases h with
  | ok h => exact h

theorem Agree.pure {a : α} (h : ∀ s t, P s t → Q a s t) : B.Agree P (pure a) (pure a) Q :=
  fun s t hst => .ok (h s t hst)

theorem Agree.throw {fault : ParseFault} (h : ∀ s t, P s t → B.Recovers s t) :
    B.Agree P (throw fault) (throw fault) Q :=
  fun s t hst => .error (h s t hst)

theorem Alike.bind {R : β → ParseState → ParseState → Prop} (hp : B.Alike Q (p s) (q t))
    (hf : ∀ a, B.Agree (Q a) (f a) (g a) R) : B.Alike R ((p >>= f) s) ((q >>= g) t) := by
  show B.Alike R (EStateM.bind p f s) (EStateM.bind q g t)
  unfold EStateM.bind
  generalize p s = r, q t = r' at hp ⊢
  cases hp with
  | ok hQ => exact hf _ _ _ hQ
  | error h => exact .error h

theorem Agree.bind {R : β → ParseState → ParseState → Prop} (hp : B.Agree P p q Q)
    (hf : ∀ a, B.Agree (Q a) (f a) (g a) R) : B.Agree P (p >>= f) (q >>= g) R :=
  fun s t hst => (hp s t hst).bind hf

theorem Gives.pure {post : α → Prop} {a : α} (h : post a) : B.Gives (Pure.pure a) post :=
  Agree.pure fun _ _ hst => ⟨hst, h⟩

theorem Gives.bind {R : β → ParseState → ParseState → Prop} {post : α → Prop} (hp : B.Gives p post)
    (hf : ∀ a, post a → B.Agree B.Reads (f a) (g a) R) : B.Agree B.Reads (p >>= f) (p >>= g) R :=
  Agree.bind hp fun a s t h => hf a h.2 s t h.1

theorem Alike.weaken (h : B.Alike Q r r') (hQ : ∀ a s t, Q a s t → Q' a s t) : B.Alike Q' r r' := by
  cases h with
  | ok h => exact .ok (hQ _ _ _ h)
  | error h => exact .error h

theorem Agree.weaken (h : B.Agree P p q Q) (hR : ∀ s t, R s t → P s t)
    (hQ : ∀ a s t, Q a s t → Q' a s t) : B.Agree R p q Q' :=
  fun s t hst => (h s t (hR s t hst)).weaken hQ

/-- What agrees between statements agrees under a weaker relation of the sources. -/
theorem Alike.cast (hlike : B.toAccount = B'.toAccount) (hlate : ∀ s, ¬B.Late s)
    (hbetween : ∀ s t, B.Between s t → B'.Between s t)
    (h : B.Alike (fun _ => B.Along B.Between) r r') :
    B'.Alike (fun _ => B'.Along B'.Between) r r' := by
  cases h with
  | ok h => exact .ok (hlike ▸ h.weaken (hbetween _ _))
  | error h =>
    refine .error ?_
    rw [Recovers, ← hlike]
    exact h.weaken fun h => ⟨hlike ▸ h.1, .inr (hbetween _ _ (h.2.resolve_left (hlate _)))⟩

/-! ## Tokens -/

theorem Within.skipLine {s t : Supply} (h : B.Within s t) : B.Between s.skipLine t.skipLine := by
  obtain ⟨hread, hnext⟩ := B.peek h
  rw [Supply.skipLine, Supply.skipLine.eq_def t, ← hread]
  by_cases hend : Reading.isToken .fileEnd s.peek.1 = true
  · simp only [dif_pos hend]
    exact B.between hnext
  · simp only [dif_neg hend]
    by_cases hline : Reading.isToken .lineEnd s.peek.1 = true
    · simp only [if_pos hline]
      exact B.after (B.eatLine h ((Reading.isToken_iff _ _).1 hline))
    · simp only [if_neg hline]
      have hinline : Reading.Inline s.peek.1 := ⟨by simpa using hline, by simpa using hend⟩
      exact Within.skipLine (B.eat h hinline)
termination_by s.remaining
decreasing_by exact s.remaining_eat_lt (by simpa using hend)

theorem Reads.recovers (h : B.Reads s t) : B.Recovers s t :=
  h.toAlong.weaken fun h => ⟨B.stands (.inl h), .inr (Within.skipLine h)⟩

theorem Reads.between (h : B.Reads s t) : B.Along B.Between s t :=
  h.toAlong.weaken B.between

theorem Facing.near {token : Token} (h : B.Facing token s t) (htoken : token.Inline) :
    B.near s.supply.position t.supply.position := by
  have hnear := B.position h.supply (by rw [h.left]) htoken
  rwa [h.left, h.right] at hnear

/-- Results of functions on the sources that agree, and how the sources are related after them. -/
inductive Outcomes (Q : α → α → Prop) (X Y : Supply → Supply → Prop) :
    Except ParseFault α × Supply → Except ParseFault α × Supply → Prop
  | ok {a b : α} {s t : Supply} (hab : Q a b) (h : X s t) : Outcomes Q X Y (.ok a, s) (.ok b, t)
  | error {fault : ParseFault} {s t : Supply} (h : Y s t) :
      Outcomes Q X Y (.error fault, s) (.error fault, t)

/-- Results of functions that stay within the line. -/
abbrev Twin (B : Beside) (Q : α → α → Prop) := Outcomes Q B.Within B.Within

end Beside

namespace Parsing

open Beside

variable {B : Beside} {α β : Type}

variable {token : Token} {P : ParseState → ParseState → Prop} {s t : ParseState}
  {X : Supply → Supply → Prop} {p q : Position}

/-- What `peekRaw` leaves is what the sources leave. -/
theorem alike_peekRaw (h : B.Reads s t) :
    B.Alike (fun token s' t' => B.Facing token s' t' ∧ s.supply.peek = (.ok token, s'.supply) ∧
      t.supply.peek = (.ok token, t'.supply)) (peekRaw s) (peekRaw t) := by
  obtain ⟨hread, hnext⟩ := B.peek h.supply
  unfold peekRaw
  cases hs : s.supply.peek with
  | mk reading supply =>
    cases ht : t.supply.peek with
    | mk reading' supply' =>
      rw [hs, ht] at hread hnext
      obtain rfl : reading = reading' := hread
      have hreads := h.move hnext
      cases reading with
      | ok token =>
        have hleft := Supply.peek_peek (s := s.supply) (by rw [hs])
        have hright := Supply.peek_peek (s := t.supply) (by rw [ht])
        rw [hs] at hleft
        rw [ht] at hright
        exact .ok ⟨⟨hreads, hleft, hright⟩, rfl, rfl⟩
      | error fault => exact .error hreads.recovers

theorem agree_peekRaw : B.Agree B.Reads peekRaw peekRaw B.Facing :=
  fun _ _ h => (alike_peekRaw h).weaken fun _ _ _ h => h.1

theorem agree_eat (htoken : token.Inline) : B.Agree (B.Facing token) eat eat fun _ => B.Reads := by
  intro s t h
  have hnext := B.eat h.supply (by rw [h.left]; exact Reading.inline_ok.2 htoken)
  rw [h.left, h.right] at hnext
  exact .ok (h.toReads.move hnext)

/-- A token of the line is dropped before what follows. -/
theorem agree_next {p q : Parsing α} {R : α → ParseState → ParseState → Prop}
    (htoken : token.Inline) (h : B.Agree B.Reads p q R) :
    B.Agree (B.Facing token) (eat >>= fun _ => p) (eat >>= fun _ => q) R :=
  (agree_eat htoken).bind fun _ => h

theorem agree_fault {fault : ParseFault} {Q : α → ParseState → ParseState → Prop} :
    B.Agree (B.Facing token) (throw fault) (throw fault) Q :=
  Agree.throw fun _ _ h => h.toReads.recovers

/-- The end of the line is dropped. -/
theorem agree_eatLine : B.Agree (B.Facing .lineEnd) eat eat fun _ => B.Along B.After := by
  intro s t h
  have hnext := B.eatLine h.supply (by rw [h.left])
  rw [h.left, h.right] at hnext
  exact .ok (h.toAlong.move hnext)

/-- Both sides choose alike. -/
theorem alike_ite {R : α → ParseState → ParseState → Prop} {c c' : Prop} [Decidable c]
    [Decidable c'] {p q p' q' : Parsing α} (hc : c ↔ c') (hst : P s t) (hp : B.Agree P p p' R)
    (hq : B.Agree P q q' R) : B.Alike R ((if c then p else q) s) ((if c' then p' else q') t) := by
  by_cases h : c
  · rw [if_pos h, if_pos (hc.1 h)]
    exact hp s t hst
  · rw [if_neg h, if_neg fun h' => h (hc.2 h')]
    exact hq s t hst

theorem agree_position (htoken : token.Inline) {f g : Position → Parsing β}
    {R : β → ParseState → ParseState → Prop}
    (h : ∀ p q, B.near p q → B.Agree (B.Facing token) (f p) (g q) R) :
    B.Agree (B.Facing token) (position >>= f) (position >>= g) R :=
  fun s t hst => h _ _ (hst.near htoken) s t hst

/-! ## Uses of macros -/

theorem agree_onSupply {p q : Supply → Except ParseFault α × Supply} {Q : α → α → Prop}
    {f g : α → Parsing β} {R : β → ParseState → ParseState → Prop}
    (h : ∀ s t, B.Within s t → B.Twin Q (p s) (q t))
    (hf : ∀ a b, Q a b → B.Agree B.Reads (f a) (g b) R) :
    B.Agree B.Reads (onSupply p >>= f) (onSupply q >>= g) R := by
  intro s t hst
  have htwin := h s.supply t.supply hst.supply
  show B.Alike R (EStateM.bind (onSupply p) f s) (EStateM.bind (onSupply q) g t)
  unfold EStateM.bind onSupply
  generalize p s.supply = r, q t.supply = r' at htwin ⊢
  cases htwin with
  | ok hab h => exact hf _ _ hab _ _ (hst.move h)
  | error h => exact .error (hst.move h).recovers

theorem twin_arguments {s t : Supply} (h : B.Within s t) (expected : Nat)
    {done done' : Array Argument}
    (hdone : List.Forall₂ (ArgumentNear B.near) done.toList done'.toList)
    {current current' : Array (Located Token)}
    (hcurrent : ArgumentNear B.near current.toList current'.toList) (depth : Nat) :
    B.Twin (List.Forall₂ (ArgumentNear B.near)) (s.arguments id expected done current depth)
      (t.arguments id expected done' current' depth) := by
  obtain ⟨hread, hnext⟩ := B.peek h
  rw [Supply.arguments, Supply.arguments.eq_def (s := t), ← hread]
  by_cases hend : Reading.isToken .fileEnd s.peek.1 = true
  · simp only [dif_pos hend]
    exact .error hnext
  · simp only [dif_neg hend]
    cases hr : s.peek.1 with
    | error fault => exact .error hnext
    | ok token =>
      by_cases hline : token = .lineEnd
      · subst hline
        exact .error hnext
      · have htoken : token.Inline := ⟨hline, by rintro rfl; simp [hr] at hend⟩
        have heat := B.eat h (by rw [hr]; exact Reading.inline_ok.2 htoken)
        have hnear := B.position h hr htoken
        have hitem := hcurrent.push hnear htoken
        have hmore : List.Forall₂ (ArgumentNear B.near) (done.push current.toList).toList
            (done'.push current'.toList).toList := by
          simp only [Array.toList_push]
          exact List.rel_append hdone (.cons hcurrent .nil)
        have hrec {done done' : Array Argument}
            (hdone : List.Forall₂ (ArgumentNear B.near) done.toList done'.toList)
            {current current' : Array (Located Token)}
            (hcurrent : ArgumentNear B.near current.toList current'.toList) (depth : Nat) :=
          twin_arguments heat expected hdone hcurrent depth
        dsimp only
        split
        · exact .error hnext
        · exact hrec hdone hitem _
        · exact hrec hdone hitem _
        · split
          · exact hrec hdone hitem _
          · rw [← isEmpty_eq_of_forall₂ hcurrent.tokens, ← isEmpty_eq_of_forall₂ hdone]
            split
            · exact .ok .nil heat
            · exact .ok hmore heat
        · exact hrec hdone hitem _
        · split
          · exact hrec hmore ⟨.nil, by simp⟩ _
          · exact hrec hdone hitem _
        · exact hrec hdone hitem _
termination_by s.remaining
decreasing_by exact s.remaining_eat_lt (by simpa using hend)

theorem agree_pushFrame {f g : Frame} (h : ∀ s t, B.Within s t → B.Within (s.push f) (t.push g)) :
    B.Agree B.Reads (pushFrame f) (pushFrame g) fun _ => B.Reads :=
  fun _ _ hst => .ok (hst.move (h _ _ hst.supply))

theorem agree_expand {m n : Macro} (hm : m.Near B.near n) (hfree : B.Free m) {name : String} :
    B.Agree (B.Facing (.name name)) (expand m) (expand n) fun _ => B.Reads := by
  have hname := Token.Inline.name name
  unfold expand
  rw [← hm.params]
  cases hparams : m.params with
  | none =>
    intro s t h
    exact .ok (h.toReads.move (B.pushUse hfree hparams h.supply h.left h.right hm))
  | some params =>
    have hcalled : m.params ≠ none := by simp [hparams]
    refine agree_position hname fun p q hpq => (agree_eat hname).bind fun _ => ?_
    refine agree_peekRaw.bind fun token => ?_
    split
    · refine (agree_pushFrame fun _ _ hst => ?_).weaken (fun _ _ h => h.toReads) fun _ _ _ h => h
      rw [← hm.name]
      exact B.pushReplay hfree hcalled hst ⟨hpq, rfl⟩ rfl
    · rename_i hparen
      obtain rfl : token = .symbol .openParen := Decidable.of_not_not hparen
      refine agree_next (.symbol _) ?_
      rw [call_eq, call_eq]
      refine agree_onSupply
        (fun _ _ hst => twin_arguments hst params.length (by simp) ⟨by simp, by simp⟩ 0) ?_
      intro args args' hargs
      rw [← hargs.length_eq, ← hm.name]
      split
      · exact Agree.throw fun s t h => h.recovers
      · rw [hm.name]
        exact agree_pushFrame fun s t hst => hm.name ▸ B.pushCall hfree hcalled hst hm hargs

/-- The same macro is used on both sides. -/
theorem rel_useOf? (h : B.Facing token s t) :
    Option.Rel (Macro.Near B.near) (useOf? s token) (useOf? t token) ∧
      (∀ m, useOf? s token = some m → B.Free m ∧ ∃ name, token = .name name) := by
  cases token with
  | name name =>
    obtain ⟨hexpands, husing⟩ := B.uses h.supply h.left h.right
    simp only [useOf?, ← hexpands, ← husing]
    split
    · rename_i huse
      rw [Bool.and_eq_true, Bool.not_eq_true'] at huse
      refine ⟨h.macros.find? name, fun m hm => ⟨?_, name, rfl⟩⟩
      exact B.free h.supply h.left (h.known name m hm) huse.1 huse.2
    · exact ⟨.none, by simp⟩
  | _ => exact ⟨.none, by simp [useOf?]⟩

/-- `peek` replaces uses of macros alike. -/
theorem agree_peek (limit : Nat) : B.Agree B.Reads (peek limit) (peek limit) B.Facing := by
  induction limit with
  | zero => exact Agree.throw fun s t h => h.recovers
  | succ limit ih =>
    unfold peek
    refine agree_peekRaw.bind fun token => ?_
    intro s t h
    obtain ⟨huse, hfree⟩ := rel_useOf? h
    have hget (f : ParseState → Parsing Token) (u : ParseState) : (get >>= f) u = f u u := rfl
    rw [hget, hget]
    generalize useOf? s token = m at huse hfree ⊢
    generalize useOf? t token = n at huse ⊢
    cases huse with
    | none => exact .ok h
    | some hm =>
      obtain ⟨hallowed, name, rfl⟩ := hfree _ rfl
      exact ((agree_expand hm hallowed).bind fun _ => ih) s t h

theorem agree_lineEnd_after (limit : Nat) :
    B.Agree B.Reads (lineEnd limit) (lineEnd limit) fun _ => B.Along B.After := by
  unfold lineEnd
  refine (agree_peek limit).bind fun token => ?_
  split
  · exact agree_eatLine
  · refine Agree.pure fun s t h => h.toAlong.weaken fun hst => ?_
    have hend := B.atEnd hst (by rw [h.left])
    rwa [h.left, h.right] at hend
  · exact agree_fault

theorem agree_lineEnd (limit : Nat) :
    B.Agree B.Reads (lineEnd limit) (lineEnd limit) fun _ => B.Along B.Between :=
  (agree_lineEnd_after limit).weaken (fun _ _ h => h) fun _ _ _ h => h.weaken B.after

theorem agree_name (what : String) : B.Steady (name what) := by
  unfold name
  refine agree_peekRaw.bind fun token => ?_
  split
  · exact agree_next (.name _) <| Agree.pure fun s t h => h
  · exact agree_fault

/-! ## Expressions -/

theorem agree_ofBuild (hP : ∀ s t, P s t → B.Reads s t) (outcome : Except BuildFault α) :
    B.Agree P (ofBuild outcome) (ofBuild outcome) fun a s t => P s t ∧ outcome = .ok a := by
  cases outcome with
  | ok a => exact Agree.pure fun s t h => ⟨h, rfl⟩
  | error fault => exact Agree.throw fun s t h => (hP s t h).recovers

/-- Only a token of the line belongs to an expression. -/
theorem inline_of_offer {b next : Expr.Builder} (h : offer b token = .ok (some next)) :
    token.Inline := by
  constructor
  · rintro rfl
    simp [offer] at h
  · rintro rfl
    simp [offer] at h

theorem agree_exprFrom (limit rounds : Nat) {b : Expr.Builder} (hb : b.Balanced) :
    B.Gives (exprFrom limit rounds b) Expr.WellFormed := by
  induction rounds generalizing b with
  | zero => exact Agree.throw fun s t h => h.recovers
  | succ rounds ih =>
    unfold exprFrom
    refine (agree_peek limit).bind fun token => ?_
    refine (agree_ofBuild (fun s t h => h.toReads) (offer b token)).bind fun offered => ?_
    split
    · refine (agree_ofBuild (P := B.Reads) (fun s t h => h) b.finish).weaken ?_ ?_
      · exact fun s t h => h.1.toReads
      · exact fun _ s t h => ⟨h.1, Expr.Builder.wellFormed_of_finish hb h.2⟩
    · intro s t h
      have hnext := balanced_of_offer hb h.2
      exact ((agree_eat (inline_of_offer h.2)).bind fun _ => ih hnext) s t h.1

theorem agree_expr (limit : Nat) : B.Gives (expr limit) Expr.WellFormed :=
  agree_exprFrom limit limit Expr.Builder.Balanced.empty

/-- Computations that agree where readers are in step agree where they have looked at a token. -/
theorem agree_facing {p q : Parsing α} {Q : α → ParseState → ParseState → Prop}
    (h : B.Agree B.Reads p q Q) (token : Token) : B.Agree (B.Facing token) p q Q :=
  h.weaken (fun _ _ h => h.toReads) fun _ _ _ h => h

theorem agree_optionalExpr (limit : Nat) :
    B.Gives (optionalExpr limit) fun e? => ∀ e ∈ e?, e.WellFormed := by
  unfold optionalExpr
  refine (agree_peek limit).bind fun token => ?_
  split
  · rename_i hcomma
    subst hcomma
    exact agree_next (.symbol _) <| (agree_expr limit).bind fun e he => Gives.pure (by simpa using he)
  · exact Agree.pure fun s t h => ⟨h.toReads, by simp⟩

theorem agree_dataItem (limit : Nat) (texts : Bool) :
    B.Gives (dataItem limit texts) fun values => ∀ e ∈ values, e.WellFormed := by
  unfold dataItem
  refine (agree_peek limit).bind fun token => ?_
  split
  · refine agree_next (.text _) <| Gives.pure fun e he => ?_
    obtain ⟨b, _, rfl⟩ := List.mem_map.1 he
    exact wellFormed_constant _
  · refine agree_facing ((agree_expr limit).bind fun e he => ?_) token
    exact Gives.pure (by simpa using he)

theorem agree_dataFrom (limit : Nat) (texts : Bool) (rounds : Nat) {values : Array Expr}
    (hvalues : ∀ e ∈ values, e.WellFormed) :
    B.Gives (dataFrom limit texts rounds values) fun values => ∀ e ∈ values, e.WellFormed := by
  induction rounds generalizing values with
  | zero => exact Agree.throw fun s t h => h.recovers
  | succ rounds ih =>
    unfold dataFrom
    refine (agree_dataItem limit texts).bind fun item hitem => (agree_peek limit).bind fun token => ?_
    have hall : ∀ e ∈ values.appendList item, e.WellFormed := by
      intro e he
      rw [← Array.mem_toList_iff, Array.appendList_eq_append, Array.toList_appendList,
        List.mem_append, Array.mem_toList_iff] at he
      exact he.elim (hvalues e) (hitem e)
    split
    · rename_i hcomma
      subst hcomma
      exact agree_next (.symbol _) <| ih hall
    · exact Agree.pure fun s t h => ⟨h.toReads, fun e he => hall e (Array.mem_toList_iff.1 he)⟩

/-! ## Arguments of codes -/

theorem agree_itemsFrom (limit rounds : Nat) {items : Array Expr}
    (hitems : ∀ e ∈ items, e.WellFormed) :
    B.Gives (itemsFrom limit rounds items) fun items => items ≠ [] ∧ ∀ e ∈ items, e.WellFormed := by
  induction rounds generalizing items with
  | zero => exact Agree.throw fun s t h => h.recovers
  | succ rounds ih =>
    unfold itemsFrom
    refine (agree_expr limit).bind fun e he => (agree_peek limit).bind fun token => ?_
    have hall : ∀ f ∈ items.push e, f.WellFormed := Array.forall_mem_push.2 ⟨he, hitems⟩
    split
    · exact agree_next (.symbol _) <| ih hall
    · refine agree_next (.symbol _) <| Gives.pure ⟨by simp, fun f hf => ?_⟩
      exact hall f (Array.mem_toList_iff.1 hf)
    · exact agree_fault

theorem agree_arg (limit : Nat) : B.Gives (arg limit) ArgRead := by
  unfold arg
  refine (agree_peek limit).bind fun token => ?_
  split
  · exact agree_next (.text _) <| Gives.pure ⟨trivial, by simp [Arg.exprs]⟩
  · refine agree_next (.symbol _) <| (agree_peek limit).bind fun token => ?_
    split
    · exact agree_fault
    · exact agree_facing ((agree_itemsFrom limit limit (by simp)).bind fun _ h => Gives.pure h) token
  · refine agree_facing ((agree_expr limit).bind fun e he => ?_) token
    exact Gives.pure ⟨trivial, by simpa [Arg.exprs] using he⟩

theorem agree_argsFrom (limit rounds : Nat) {args : Array Arg} (hargs : ∀ a ∈ args, ArgRead a) :
    B.Gives (argsFrom limit rounds args) fun args => ∀ a ∈ args, ArgRead a := by
  induction rounds generalizing args with
  | zero => exact Agree.throw fun s t h => h.recovers
  | succ rounds ih =>
    unfold argsFrom
    refine (agree_arg limit).bind fun a ha => (agree_peek limit).bind fun token => ?_
    have hall : ∀ b ∈ args.push a, ArgRead b := Array.forall_mem_push.2 ⟨ha, hargs⟩
    split
    · exact agree_next (.symbol _) <| ih hall
    · exact agree_next (.symbol _) <| Gives.pure fun b hb => hall b (Array.mem_toList_iff.1 hb)
    · exact agree_fault

theorem agree_args (limit : Nat) : B.Gives (args limit) fun args => ∀ a ∈ args, ArgRead a := by
  unfold args
  refine (agree_peek limit).bind fun token => ?_
  split
  · exact Agree.pure fun s t h => ⟨h.toReads, by simp⟩
  · rename_i hparen
    obtain rfl : token = .symbol .openParen := Decidable.of_not_not hparen
    refine agree_next (.symbol _) <| (agree_peek limit).bind fun token => ?_
    split
    · rename_i hclose
      subst hclose
      exact agree_next (.symbol _) <| Gives.pure (by simp)
    · exact agree_facing (agree_argsFrom limit limit (by simp)) token

/-! ## Statements -/

theorem agree_keyword (registry : Registry) (limit : Nat) {name : String} {word : Keyword}
    (hword : Keyword.ofName? name = some word) :
    B.Gives (keyword limit name word) (Statement.Sound registry) := by
  cases word with
  | org | align | assertion =>
    refine (agree_expr limit).bind fun e he => Gives.pure (sound_of_exprs (by simp) ?_ (by simp))
    exact fun f hf => List.mem_singleton.1 hf ▸ he
  | push | pop => exact Gives.pure (sound_of_exprs (by simp) (by simp [Statement.exprs]) (by simp))
  | data width =>
    refine (agree_dataFrom limit _ limit (by simp)).bind fun values hvalues =>
      Gives.pure (sound_of_exprs (by simp) hvalues ?_)
    rintro _ _ ⟨⟩
    exact width_of_ofName? hword
  | pointers =>
    exact (agree_dataFrom limit _ limit (by simp)).bind fun values hvalues =>
      Gives.pure (sound_of_exprs (by simp) hvalues (by simp))
  | fill =>
    refine (agree_expr limit).bind fun count hcount => (agree_optionalExpr limit).bind
      fun value hvalue => Gives.pure (sound_of_exprs (by simp) ?_ (by simp))
    refine List.forall_mem_cons.2 ⟨hcount, fun e he => ?_⟩
    obtain rfl := List.mem_singleton.1 he
    cases value with
    | none => exact wellFormed_constant 0
    | some value => exact hvalue value rfl
  | protect =>
    refine (agree_expr limit).bind fun start hstart => (agree_optionalExpr limit).bind
      fun stop hstop => Gives.pure (sound_of_exprs (by simp) ?_ (by simp))
    exact List.forall_mem_cons.2 ⟨hstart, fun e he => hstop e (Option.mem_toList.1 he)⟩
  | report severity =>
    refine (agree_peek limit).bind fun token => ?_
    split
    · exact agree_next (.text _) <|
        Gives.pure (sound_of_exprs (by simp) (by simp [Statement.exprs]) (by simp))
    · exact agree_fault

theorem agree_emit {statement : Statement} (h : B.same ⟨p, statement⟩ ⟨q, statement⟩) :
    B.Agree (B.Along X) (emit p statement) (emit q statement) fun _ => B.Along X := by
  intro s t hst
  refine .ok ⟨hst.supply, hst.macros, hst.openBlocks, ?_, hst.diagnostics⟩
  simp only [ParseState.emit, Array.toList_push, ← List.append_assoc]
  exact List.rel_append hst.statements (.cons h .nil)

theorem agree_note (hpq : B.Noted p q) (severity : Severity) (text : String) :
    B.Agree (B.Along X) (note severity p text) (note severity q text) fun _ => B.Along X := by
  intro s t h
  refine .ok ⟨h.supply, h.macros, h.openBlocks, h.statements, ?_⟩
  simp only [ParseState.note, Array.toList_push, ← List.append_assoc]
  exact List.rel_append h.diagnostics (.cons (hpq severity text) .nil)

theorem agree_skipLine :
    B.Agree (B.Along B.Within) skipLine skipLine fun _ => B.Along B.Between :=
  fun _ _ h => .ok (h.move (Within.skipLine h.supply))

theorem agree_invoke {env : Environment} (hpq : B.near p q) (hstated : B.Stated env p q)
    (name : String) :
    B.Agree B.Reads (invoke env p name) (invoke env q name) fun _ => B.Along B.Between := by
  have hnoted : B.Noted p q := B.heard_of_near hpq
  unfold invoke
  split
  · refine Agree.bind (Q := fun _ => B.Along B.Within) ?_ fun _ => agree_skipLine
    exact (agree_note hnoted .error _).weaken (fun s t h => h.toAlong) fun _ _ _ h => h
  · rename_i code hcode
    refine (agree_args _).bind fun args hargs => (agree_lineEnd _).bind fun _ => ?_
    split
    · rename_i hcheck
      refine agree_emit (hstated _ fun hr => ⟨?_, ?_, by simp⟩)
      · intro e he
        obtain ⟨arg, harg, he⟩ := List.mem_flatMap.1 he
        exact (hargs arg harg).2 e he
      · -- The arguments were checked before the statement was added.
        rintro _ _ ⟨rfl, rfl⟩
        exact ⟨fun arg harg => (hargs arg harg).1, code, at?_of_get? hr hcode, hcheck⟩
    · exact agree_note hnoted .error _

/-- Statements that start with a name. -/
theorem agree_named {env : Environment} (hpq : B.near p q) (hstated : B.Stated env p q)
    {name : String} :
    B.Agree (B.Facing (.name name)) (named env p name) (named env q name)
      fun _ => B.Along B.Between := by
  unfold named
  refine agree_next (.name _) ?_
  split
  · rename_i hword
    exact (agree_keyword env.registry _ hword).bind fun statement hstatement =>
      (agree_lineEnd _).bind fun _ => agree_emit (hstated _ fun _ => hstatement)
  · refine (agree_peek _).bind fun token => ?_
    split
    · refine agree_next (.symbol _) ?_
      have hsound : Statement.Sound env.registry (.label name) :=
        sound_of_exprs (by simp) (by simp [Statement.exprs]) (by simp)
      exact (agree_emit (hstated _ fun _ => hsound)).weaken (fun s t h => h.between) fun _ _ _ h => h
    · refine agree_next (.symbol _) <| (agree_expr _).bind fun value hvalue =>
        (agree_lineEnd _).bind fun _ => agree_emit (hstated _ fun _ => ?_)
      exact sound_of_exprs (by simp) (by simpa [Statement.exprs] using hvalue) (by simp)
    · exact agree_facing (agree_invoke hpq hstated name) token

end Parsing

end CartScript
