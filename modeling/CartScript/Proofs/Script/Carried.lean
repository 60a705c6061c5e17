import CartScript.Proofs.Script.Pairing

/-!
# Scripts with other text behind them

Two readers of one script have the same sources on top of it where the left one has other text behind
its script.  A look at a token and a drop of it leave the same on both sides, as long as the script
lasts.
-/

namespace CartScript

/-! ## Data at the same positions -/

theorem Located.eq_of_near {α : Type} {a b : Located α} (h : a.Near Eq b) : a = b := by
  obtain ⟨p, x⟩ := a
  obtain ⟨q, y⟩ := b
  obtain ⟨rfl, rfl⟩ : p = q ∧ x = y := h
  rfl

theorem Located.eq_of_forall₂ {α : Type} {as bs : List (Located α)}
    (h : List.Forall₂ (Located.Near Eq) as bs) : as = bs :=
  List.forall₂_eq_eq_eq ▸ h.imp fun _ _ => eq_of_near

theorem Macro.eq_of_near {m n : Macro} (h : m.Near Eq n) : m = n := by
  obtain ⟨name, params, body⟩ := m
  obtain ⟨name', params', body'⟩ := n
  obtain rfl : name = name' := h.name
  obtain rfl : params = params' := h.params
  obtain rfl : body = body' := Located.eq_of_forall₂ h.body
  rfl

theorem eq_of_argumentNear {args args' : List Argument}
    (h : List.Forall₂ (ArgumentNear Eq) args args') : args = args' :=
  List.forall₂_eq_eq_eq ▸ h.imp fun _ _ hab => Located.eq_of_forall₂ hab.tokens

/-! ## The script at the bottom -/

namespace Supply

/-- The sources with their script changed. -/
def mapRoot (s : Supply) (change : Frame → Frame) : Supply := { s with root := change s.root }

/-- Whether a line ends before the script goes on. -/
def isCovered (s : Supply) : Bool := s.lineEnded || s.stack.any Frame.isFile

/-- The next token comes from a source on top of the script. -/
structure FromTop (s next : Supply) (reading : Reading) : Prop where
  ne : reading ≠ .ok .fileEnd
  root : next.root = s.root
  root_eat : next.eat.root = s.root
  covered : s.isCovered = true → next.isCovered = true ∧
    (Reading.Inline reading → next.eat.isCovered = true)
  peek : ∀ grow, (s.mapRoot grow).peek = (reading, next.mapRoot grow)

/-- Where the next token comes from. -/
theorem peek_cases (s : Supply) :
    (s.isCovered = false ∧
        ∀ grow, (s.mapRoot grow).peek = ((grow s.root).peek.1, ⟨(grow s.root).peek.2, [], false⟩)) ∨
      s.FromTop s.peek.2 s.peek.1 := by
  obtain ⟨root, stack, lineEnded⟩ := s
  cases lineEnded with
  | true => exact .inr ⟨by simp [peek], rfl, rfl, fun _ => ⟨rfl, fun h => absurd rfl h.1⟩, fun _ => rfl⟩
  | false =>
    induction stack with
    | nil => exact .inl ⟨rfl, fun _ => rfl⟩
    | cons f stack ih =>
      by_cases hend : Reading.isToken .fileEnd f.peek.1 = true
      · cases hfile : f.isFile with
        | true =>
          simp only [peek, peekStack, hend, hfile, Bool.false_eq_true, if_true, if_false]
          refine .inr ⟨by simp, rfl, rfl, fun _ => ⟨rfl, fun h => absurd rfl h.1⟩, fun grow => ?_⟩
          simp only [peek, mapRoot, peekStack, hend, hfile, Bool.false_eq_true, if_true, if_false]
        | false =>
          have hpeek (grow : Frame → Frame) : ((⟨root, f :: stack, false⟩ : Supply).mapRoot grow).peek =
              ((⟨root, stack, false⟩ : Supply).mapRoot grow).peek := by
            simp only [peek, mapRoot, peekStack, hend, hfile, Bool.false_eq_true, if_true, if_false]
          have hcovered : (⟨root, f :: stack, false⟩ : Supply).isCovered =
              (⟨root, stack, false⟩ : Supply).isCovered := by simp [isCovered, hfile]
          rw [show (⟨root, f :: stack, false⟩ : Supply).peek = _ from hpeek id, hcovered]
          refine ih.imp (fun h => ⟨h.1, fun grow => (hpeek grow).trans (h.2 grow)⟩) fun h => ?_
          exact ⟨h.ne, h.root, h.root_eat, hcovered ▸ h.covered, fun grow => (hpeek grow).trans (h.peek grow)⟩
      · simp only [peek, peekStack, hend, Bool.false_eq_true, if_false]
        refine .inr ⟨by simpa using hend, rfl, rfl, fun h => ⟨?_, fun _ => ?_⟩, fun grow => ?_⟩
        · simpa [isCovered] using h
        · simpa [isCovered, eat, mapTop] using h
        · simp only [peek, mapRoot, peekStack, hend, Bool.false_eq_true, if_false]

end Supply

/-! ## Both sides -/

/-- Readers that go along a script, of which the left one has the script grown. -/
structure Carrier where
  account : Account
  near_eq : account.near = Eq
  /-- The script of the left side. -/
  grow : Frame → Frame
  akin : ∀ f, (grow f).Akin f
  eat_grow : ∀ f, (grow f).eat = grow f.eat
  position_grow : ∀ f, (grow f).position = f.position
  /-- Within a line, and after one. -/
  Within : Supply → Prop
  After : Supply → Prop
  /-- Where it is too late to go on after a fault. -/
  Late : Supply → Prop
  /-- Which directives may be met. -/
  Apt : Directive → Prop
  level : ∀ {d}, Apt d → d = .otherwise ∨ d = .endIf → account.deeper = 0
  after : ∀ {s}, Within s → After s
  peek_grow : ∀ {s}, Within s → (s.mapRoot grow).peek = (s.peek.1, s.peek.2.mapRoot grow)
  peek : ∀ {s}, Within s → Within s.peek.2
  eat : ∀ {s}, Within s → Reading.Inline s.peek.1 → Within s.peek.2.eat
  eatLine : ∀ {s}, Within s → s.peek.1 = .ok .lineEnd → After s.peek.2.eat
  push : ∀ {s} {u : Frame}, Within s → UseNear Eq u u → Within (s.push u)

namespace Carrier

variable (C : Carrier) {s : Supply}

theorem eat_mapRoot (s : Supply) : (s.mapRoot C.grow).eat = s.eat.mapRoot C.grow := by
  obtain ⟨root, stack, lineEnded⟩ := s
  cases lineEnded with
  | true => rfl
  | false =>
    cases stack with
    | nil => exact congrArg (Supply.mk · [] false) (C.eat_grow root)
    | cons f stack => rfl

theorem position_mapRoot (s : Supply) : (s.mapRoot C.grow).position = s.position := by
  obtain ⟨root, stack, lineEnded⟩ := s
  cases stack with
  | nil => exact C.position_grow root
  | cons f stack => rfl

theorem noted (s : Supply) : C.account.Noted (s.mapRoot C.grow).position s.position :=
  C.account.heard_of_near (by rw [C.position_mapRoot, C.near_eq])

theorem eat_of_peek {token : Token} (h : C.Within s) (hs : s.peek = (.ok token, s))
    (htoken : token.Inline) : C.Within s.eat := by
  have heat := C.eat h (by rw [hs]; exact Reading.inline_ok.2 htoken)
  rwa [hs] at heat

/-- The readers as they are read side by side. -/
def beside : Beside where
  toAccount := C.account
  Within s t := s = t.mapRoot C.grow ∧ C.Within t
  After s t := s = t.mapRoot C.grow ∧ C.After t
  Between s t := s = t.mapRoot C.grow ∧ C.After t
  Known _ _ := True
  Free _ := True
  Apt d _ := C.Apt d
  Late := C.Late
  level := C.level
  stands h := by
    rcases h with ⟨rfl, _⟩ | ⟨rfl, _⟩
    · exact C.noted _
    · exact C.noted _
  between h := ⟨h.1, C.after h.2⟩
  after h := h
  peek h := by
    obtain ⟨rfl, h⟩ := h
    rw [C.peek_grow h]
    exact ⟨rfl, rfl, C.peek h⟩
  eat h hinline := by
    obtain ⟨rfl, h⟩ := h
    rw [C.peek_grow h] at hinline ⊢
    exact ⟨C.eat_mapRoot _, C.eat h hinline⟩
  eatLine h hline := by
    obtain ⟨rfl, h⟩ := h
    rw [C.peek_grow h] at hline ⊢
    exact ⟨C.eat_mapRoot _, C.eatLine h hline⟩
  atEnd h _ := by
    obtain ⟨rfl, h⟩ := h
    rw [C.peek_grow h]
    exact ⟨rfl, C.after (C.peek h)⟩
  position h _ _ := by
    obtain ⟨rfl, h⟩ := h
    rw [C.peek_grow h, C.near_eq, C.position_mapRoot]
  follows h _ name hs ht := by
    obtain ⟨rfl, h⟩ := h
    have hname := C.eat_of_peek h ht.define (.directive _)
    have hparen := C.eat hname (by rw [ht.name]; exact Reading.inline_ok.2 (.name _))
    rw [C.eat_mapRoot, C.peek_grow hname, C.eat_mapRoot,
      C.peek_grow hparen, C.position_mapRoot, C.position_mapRoot]
  uses {s t name} h _ _ := by
    obtain ⟨rfl, h⟩ := h
    obtain ⟨root, stack, lineEnded⟩ := t
    constructor
    · cases stack with
      | nil => exact (C.akin root).expands
      | cons f stack => rfl
    · simp only [Supply.isUsing, Supply.frames, Supply.mapRoot, List.any_append, List.any_cons,
        (C.akin root).isUseOf]
  free _ _ _ _ _ := trivial
  pushUse _ _ h _ ht hm := by
    obtain ⟨rfl, h⟩ := h
    rw [C.near_eq] at hm
    obtain rfl := Macro.eq_of_near hm
    rw [C.eat_mapRoot]
    exact ⟨rfl, C.push (C.eat_of_peek h ht (.name _)) (useNear_expansion hm .nil)⟩
  pushCall _ _ h hm hargs := by
    obtain ⟨rfl, h⟩ := h
    rw [C.near_eq] at hm hargs
    obtain rfl := Macro.eq_of_near hm
    obtain rfl := eq_of_argumentNear hargs
    exact ⟨rfl, C.push h (useNear_expansion hm hargs)⟩
  pushReplay _ _ h hab hname := by
    obtain ⟨rfl, h⟩ := h
    rw [C.near_eq] at hab
    obtain rfl := Located.eq_of_near hab
    exact ⟨rfl, C.push h (useNear_replay hab (by rw [hname]; exact .name _))⟩

open Parsing

/-- Files are included alike. -/
theorem files {env : Environment} (hlate : ∀ {s}, C.After s → C.Within s ∨ C.Late s)
    (hopen : ∀ {s path route content}, C.After s → env.tree.resolve path = .ok route →
      (s.frames.any fun f => f.route? == some route) = false → env.tree.read path = .ok content →
      C.After (s.push (.file (some route) (.ofBytes path content.toList))))
    (hbytes : ∀ p content, C.account.same ⟨p, .bytes content⟩ ⟨p, .bytes content⟩) :
    Files C.beside env env.tree where
  find h name := by
    obtain ⟨rfl, _⟩ := h
    simp only [findFile?, Supply.frames, Supply.mapRoot, List.findSome?_append, List.findSome?_cons,
      (C.akin _).route?]
  skipLine h := (hlate h.2).symm.imp_right fun hwithin =>
    Beside.Within.skipLine (B := C.beside) ⟨h.1, hwithin⟩
  resolve _ := rfl
  unread _ _ := .rfl
  opened h route := by
    obtain ⟨rfl, _⟩ := h
    simp only [Supply.frames, Supply.mapRoot, List.any_append, List.any_cons, (C.akin _).route?]
  push h hroute hclosed hread hread' := by
    obtain ⟨rfl, h⟩ := h
    obtain rfl := Except.ok.inj (hread.symm.trans hread')
    refine ⟨rfl, hopen h hroute ?_ hread⟩
    simpa only [Supply.frames, Supply.mapRoot, List.any_append, List.any_cons, (C.akin _).route?]
      using hclosed
  bytes {path content content' p q} hread hread' hpq := by
    obtain rfl := Except.ok.inj (hread.symm.trans hread')
    replace hpq : C.account.near p q := hpq
    rw [C.near_eq] at hpq
    exact hpq ▸ hbytes p content

end Carrier

end CartScript
