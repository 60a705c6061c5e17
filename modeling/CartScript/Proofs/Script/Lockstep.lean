import CartScript.Proofs.Script.Pairing

/-!
# Files in step

Two files are in step as long as they have the same rounds ahead.  `Lockstep` says this of a relation
between lists of rounds, and there are two ways for the files of two scripts to be in step:

- `Firm`: only the topmost files are read, and what lies below them does not matter;
- `Synced`: all files are in step, from the script itself to the topmost one.
-/

namespace CartScript

open TextStream (Round)

/-- A relation between the rounds ahead, and what it becomes after a line. -/
structure Lockstep (near : Position → Position → Prop) (T D : List Round → List Round → Prop) :
    Prop where
  nil : ∀ {as bs}, T as bs → (as = [] ↔ bs = [])
  first : ∀ {a b as bs}, T (a :: as) (b :: bs) → a.Near near b
  inline : ∀ {a b as bs}, T (a :: as) (b :: bs) → Reading.Inline a.outcome → T as bs
  line : ∀ {a b as bs}, T (a :: as) (b :: bs) → a.outcome = .ok .lineEnd → D as bs
  rest : ∀ {as bs}, T as bs → D as bs

/-- A parenthesis follows the name of a macro that is defined in both texts or in none. -/
def DefinesAlike (T : List Round → List Round → Prop) : Prop :=
  ∀ {d a a' d' b b' as bs} {name : String}, T (d :: a :: a' :: as) (d' :: b :: b' :: bs) →
    d.outcome = .ok (.directive .define) → a.outcome = .ok (.name name) →
    a'.outcome = .ok (.symbol .openParen) →
    (Position.Follows name a.position a'.position ↔ Position.Follows name b.position b'.position)

/-- Files with related rounds ahead. -/
structure FilePair (R : List Round → List Round → Prop) (f g : Frame) : Prop where
  left : f.isFile = true
  right : g.isFile = true
  ahead : R f.ahead g.ahead

namespace FilePair

variable {near : Position → Position → Prop} {T D : List Round → List Round → Prop} {f g : Frame}

theorem rest (hT : Lockstep near T D) (h : FilePair T f g) : FilePair D f g :=
  ⟨h.left, h.right, hT.rest h.ahead⟩

/-- Both files have come to their end, or they have the same round next. -/
theorem cases (hT : Lockstep near T D) (h : FilePair T f g) :
    (f.ahead = [] ∧ g.ahead = []) ∨
      ∃ a b as bs, f.ahead = a :: as ∧ g.ahead = b :: bs ∧ a.Near near b := by
  have hahead := h.ahead
  cases hf : f.ahead with
  | nil =>
    rw [hf] at hahead
    exact .inl ⟨rfl, (hT.nil hahead).1 rfl⟩
  | cons a as =>
    cases hg : g.ahead with
    | nil =>
      rw [hf, hg] at hahead
      cases (hT.nil hahead).2 rfl
    | cons b bs =>
      rw [hf, hg] at hahead
      exact .inr ⟨a, b, as, bs, rfl, rfl, hT.first hahead⟩

theorem peek_fst (hT : Lockstep near T D) (h : FilePair T f g) : f.peek.1 = g.peek.1 := by
  rcases h.cases hT with ⟨hf, hg⟩ | ⟨a, b, as, bs, hf, hg, hab⟩
  · rw [Frame.peek_of_ahead_nil hf, Frame.peek_of_ahead_nil hg]
  · rw [(Frame.peek_of_ahead hf).1, (Frame.peek_of_ahead hg).1, hab.1]

/-- The rounds ahead, with the first one apart. -/
theorem ahead_of_ne (hT : Lockstep near T D) (h : FilePair T f g) (hne : f.peek.1 ≠ .ok .fileEnd) :
    T (⟨f.peek.1, f.peek.2.position⟩ :: f.peek.2.eat.ahead)
      (⟨g.peek.1, g.peek.2.position⟩ :: g.peek.2.eat.ahead) := by
  have hne' : g.peek.1 ≠ .ok .fileEnd := h.peek_fst hT ▸ hne
  rw [← Frame.ahead_of_ne hne, ← Frame.ahead_of_ne hne']
  exact h.ahead

theorem eat (hT : Lockstep near T D) (h : FilePair T f g) (hinline : Reading.Inline f.peek.1) :
    FilePair T f.peek.2.eat g.peek.2.eat :=
  ⟨by simpa using h.left, by simpa using h.right, hT.inline (h.ahead_of_ne hT hinline.2) hinline⟩

theorem eatLine (hT : Lockstep near T D) (h : FilePair T f g) (hline : f.peek.1 = .ok .lineEnd) :
    FilePair D f.peek.2.eat g.peek.2.eat :=
  ⟨by simpa using h.left, by simpa using h.right,
    hT.line (h.ahead_of_ne hT (by rw [hline]; simp)) hline⟩

theorem position (hT : Lockstep near T D) (h : FilePair T f g) (hne : f.peek.1 ≠ .ok .fileEnd) :
    near f.peek.2.position g.peek.2.position :=
  (hT.first (h.ahead_of_ne hT hne)).2

theorem peek (hT : Lockstep near T D) (h : FilePair T f g) : FilePair T f.peek.2 g.peek.2 := by
  have hread := h.peek_fst hT
  cases hf : f.peek.1 with
  | ok token =>
    refine ⟨by simpa using h.left, by simpa using h.right, ?_⟩
    rw [Frame.ahead_peek hf, Frame.ahead_peek (hread ▸ hf)]
    exact h.ahead
  | error fault =>
    -- A fault is passed over by looking at it.
    have heat := h.eat hT (by rw [hf]; exact ⟨by simp, by simp⟩)
    rwa [Frame.eat_peek_error hf, Frame.eat_peek_error (hread ▸ hf)] at heat

end FilePair

namespace Supply

variable {s : Supply}

theorem frames_withTop (s : Supply) (f : Frame) : (s.withTop f).frames = f :: s.frames.tail := by
  obtain ⟨root, stack, lineEnded⟩ := s
  cases stack with
  | nil | cons g stack => rfl

theorem frames_eq (s : Supply) : s.frames = s.top :: s.frames.tail := by
  obtain ⟨root, stack, lineEnded⟩ := s
  cases stack with
  | nil | cons g stack => rfl

/-- A token within the line comes from the topmost file. -/
theorem top_of_peek {token : Token} (hline : s.lineEnded = false) (hfile : s.top.isFile = true)
    (h : s.peek.1 = .ok token) (htoken : token.Inline) :
    s.top.peek.1 = .ok token ∧ s.peek.2 = s.withTop s.top.peek.2 := by
  by_cases hend : s.top.peek.1 = .ok .fileEnd ∧ s.stack ≠ []
  · obtain ⟨root, stack, lineEnded⟩ := s
    obtain rfl : lineEnded = false := hline
    obtain ⟨hend, hstack⟩ := hend
    cases stack with
    | nil => exact absurd rfl hstack
    | cons f stack =>
      replace hend : f.peek.1 = .ok .fileEnd := hend
      replace hfile : f.isFile = true := hfile
      rw [peek_of_not rfl] at h
      simp only [peekStack, hend, hfile, (Reading.isToken_iff _ _).2, if_true] at h
      exact absurd (Except.ok.inj h).symm htoken.1
  · have hpeek := peek_withTop hline (f := s.top)
      ((Classical.not_and_iff_not_or_not.1 hend).imp id Classical.not_not.1)
    rw [withTop_top] at hpeek
    rw [hpeek] at h ⊢
    exact ⟨h, rfl⟩

/-- The token after one of the topmost file comes from it, too. -/
theorem top_of_peek_eat {token : Token} (hline : s.lineEnded = false) (hfile : s.top.isFile = true)
    (h : s.eat.peek.1 = .ok token) (htoken : token.Inline) :
    s.top.eat.peek.1 = .ok token ∧ s.eat.peek.2 = s.withTop s.top.eat.peek.2 := by
  have heat : s.eat = s.withTop s.top.eat := by
    have heat := eat_withTop hline s.top
    rwa [withTop_top] at heat
  rw [heat] at h ⊢
  have hnext := top_of_peek (by simpa using hline) (by simpa using hfile) h htoken
  rwa [top_withTop, withTop_withTop] at hnext

/-- The definition of a macro in a file is ahead in that file. -/
theorem Defines.ahead_top {name : String} (h : s.Defines name) (hline : s.lineEnded = false)
    (hfile : s.top.isFile = true) :
    ∃ a rounds, a.outcome = .ok (.directive .define) ∧
      s.top.ahead = a :: ⟨.ok (.name name), s.eat.peek.2.position⟩ ::
        ⟨.ok (.symbol .openParen), s.eat.peek.2.eat.peek.2.position⟩ :: rounds := by
  obtain ⟨hdefine, hsettled⟩ := top_of_peek hline hfile (by rw [h.define]) (.directive _)
  have htop : s.top.peek.2 = s.top := by
    have htop := congrArg top hsettled
    rw [h.define, top_withTop] at htop
    exact htop.symm
  obtain ⟨hname, hnext⟩ := top_of_peek_eat hline hfile h.name (.name _)
  have hparen := h.paren
  rw [hnext] at hparen ⊢
  obtain ⟨hparen, hlast⟩ := top_of_peek_eat (by simpa using hline) (by simpa using hfile) hparen
    (.symbol _)
  rw [top_withTop] at hparen
  rw [hlast, top_withTop]
  refine ⟨⟨s.top.peek.1, s.top.position⟩, s.top.eat.peek.2.eat.peek.2.eat.ahead, hdefine, ?_⟩
  rw [Frame.ahead_of_ne (by rw [hdefine]; simp), htop,
    Frame.ahead_of_ne (f := s.top.eat) (by rw [hname]; simp), hname,
    Frame.ahead_of_ne (f := s.top.eat.peek.2.eat) (by rw [hparen]; simp), hparen]
  simp [position]

/-- Files on top that are in step. -/
theorem definesAlike_of_top {T : List Round → List Round → Prop} {t : Supply}
    (halike : CartScript.DefinesAlike T) (hline : s.lineEnded = t.lineEnded)
    (h : s.lineEnded = false → FilePair T s.top t.top) : s.DefinesAlike t := by
  intro name hs ht
  have hs' : s.lineEnded = false := lineEnded_of_peek (by rw [hs.define]) (by simp)
  have hfg := h hs'
  obtain ⟨a, as, ha, hahead⟩ := hs.ahead_top hs' hfg.left
  obtain ⟨b, bs, _, hahead'⟩ := ht.ahead_top (hline ▸ hs') hfg.right
  have hrounds := hfg.ahead
  rw [hahead, hahead'] at hrounds
  exact halike hrounds ha rfl rfl

end Supply

namespace Supply

/-! ## The files that are being read -/

/-- The files that are being read, the innermost first. -/
def openFiles (s : Supply) : List Route := s.frames.filterMap Frame.route?

variable {s : Supply}

theorem openFiles_mk (root : Frame) (stack : List Frame) (lineEnded : Bool) :
    (⟨root, stack, lineEnded⟩ : Supply).openFiles =
      stack.filterMap Frame.route? ++ [root].filterMap Frame.route? :=
  List.filterMap_append

theorem any_route?_iff (s : Supply) (route : Route) :
    (s.frames.any fun f => f.route? == some route) = true ↔ route ∈ s.openFiles := by
  simp [openFiles, List.mem_filterMap]

theorem openFiles_withTop {f : Frame} (h : f.route? = s.top.route?) :
    (s.withTop f).openFiles = s.openFiles := by
  rw [openFiles, openFiles, frames_withTop, frames_eq s, List.filterMap_cons, List.filterMap_cons, h]
  rfl

theorem openFiles_push_file (s : Supply) (route : Route) (text : TextStream) :
    (s.push (.file (some route) text)).openFiles = route :: s.openFiles := rfl

theorem openFiles_put {us : List Frame} (h : ∀ u ∈ us, u.isFile = false) :
    (s.put us).openFiles = s.openFiles := by
  have hnone : us.filterMap Frame.route? = [] := by
    rw [List.filterMap_eq_nil_iff]
    exact fun u hu => Frame.route?_of_use (h u hu)
  show (us ++ s.stack ++ [s.root]).filterMap Frame.route? = (s.stack ++ [s.root]).filterMap _
  rw [List.append_assoc, List.filterMap_append, hnone, List.nil_append]

end Supply

/-! ## Only the topmost files -/

/-- The topmost files are in step, on top of whatever lies below them. -/
structure Firm extends Likeness where
  T : List Round → List Round → Prop
  D : List Round → List Round → Prop
  /-- The rounds ahead between statements. -/
  E : List Round → List Round → Prop
  Apt : Directive → Supply → Prop
  /-- What lies below, and any file on top of it. -/
  left : Supply
  right : Supply
  reading : left.lineEnded = false ∧ right.lineEnded = false
  lockstep : Lockstep near T D
  settled : ∀ {as bs}, D as bs → E as bs
  /-- The files do not come to their end within a line, unless that is the end of the script. -/
  bottom : (∀ as bs, T as bs → as ≠ []) ∨ (left.stack = [] ∧ right.stack = [])
  isUsing : ∀ name, left.frames.tail.any (Frame.isUseOf name) =
    right.frames.tail.any (Frame.isUseOf name)
  follows : (∀ p q, near p q → p = q) ∨
    ((∀ s, Apt .define s → s.top.isFile = true) ∧ DefinesAlike T)

namespace Firm

variable (F : Firm)

/-- The topmost files have related rounds ahead. -/
def On (R : List Round → List Round → Prop) (s t : Supply) : Prop :=
  ∃ f g, s = F.left.withTop f ∧ t = F.right.withTop g ∧ FilePair R f g ∧
    f.route? = F.left.top.route? ∧ g.route? = F.right.top.route?

variable {F} {s t : Supply}

theorem On.peek_eq {f g : Frame} (h : FilePair F.T f g) :
    (F.left.withTop f).peek = (f.peek.1, F.left.withTop f.peek.2) ∧
      (F.right.withTop g).peek = (g.peek.1, F.right.withTop g.peek.2) := by
  rcases F.bottom with hne | ⟨hleft, hright⟩
  · have hf : f.peek.1 ≠ .ok .fileEnd := fun hend => hne _ _ h.ahead (Frame.ahead_of_fileEnd hend)
    exact ⟨Supply.peek_withTop F.reading.1 (.inl hf),
      Supply.peek_withTop F.reading.2 (.inl (h.peek_fst F.lockstep ▸ hf))⟩
  · exact ⟨Supply.peek_withTop F.reading.1 (.inr hleft),
      Supply.peek_withTop F.reading.2 (.inr hright)⟩

variable {R : List Round → List Round → Prop}

theorem On.lineEnded (h : F.On R s t) : s.lineEnded = false ∧ t.lineEnded = false := by
  obtain ⟨f, g, rfl, rfl, _, _, _⟩ := h
  exact ⟨by simpa using F.reading.1, by simpa using F.reading.2⟩

theorem On.isFile (h : F.On R s t) : s.top.isFile = true ∧ t.top.isFile = true := by
  obtain ⟨f, g, rfl, rfl, hfg, _, _⟩ := h
  exact ⟨by simpa using hfg.left, by simpa using hfg.right⟩

theorem On.mono {R' : List Round → List Round → Prop} (h : F.On R s t)
    (hR : ∀ {as bs}, R as bs → R' as bs) : F.On R' s t := by
  obtain ⟨f, g, rfl, rfl, hfg, hf, hg⟩ := h
  exact ⟨f, g, rfl, rfl, ⟨hfg.left, hfg.right, hR hfg.ahead⟩, hf, hg⟩

theorem On.peek (h : F.On F.T s t) : s.peek.1 = t.peek.1 ∧ F.On F.T s.peek.2 t.peek.2 := by
  obtain ⟨f, g, rfl, rfl, hfg, hf, hg⟩ := h
  rw [(On.peek_eq hfg).1, (On.peek_eq hfg).2]
  exact ⟨hfg.peek_fst F.lockstep, _, _, rfl, rfl, hfg.peek F.lockstep, by simpa using hf,
    by simpa using hg⟩

theorem On.eat (h : F.On F.T s t) (hinline : Reading.Inline s.peek.1) :
    F.On F.T s.peek.2.eat t.peek.2.eat := by
  obtain ⟨f, g, rfl, rfl, hfg, hf, hg⟩ := h
  rw [(On.peek_eq hfg).1] at hinline
  rw [(On.peek_eq hfg).1, (On.peek_eq hfg).2]
  exact ⟨_, _, Supply.eat_withTop F.reading.1 _, Supply.eat_withTop F.reading.2 _,
    hfg.eat F.lockstep hinline, by simpa using hf, by simpa using hg⟩

theorem On.eatLine (h : F.On F.T s t) (hline : s.peek.1 = .ok .lineEnd) :
    F.On F.D s.peek.2.eat t.peek.2.eat := by
  obtain ⟨f, g, rfl, rfl, hfg, hf, hg⟩ := h
  rw [(On.peek_eq hfg).1] at hline
  rw [(On.peek_eq hfg).1, (On.peek_eq hfg).2]
  exact ⟨_, _, Supply.eat_withTop F.reading.1 _, Supply.eat_withTop F.reading.2 _,
    hfg.eatLine F.lockstep hline, by simpa using hf, by simpa using hg⟩

theorem On.position (h : F.On F.T s t) {token : Token} (htoken : s.peek.1 = .ok token)
    (hinline : token.Inline) : F.near s.peek.2.position t.peek.2.position := by
  obtain ⟨f, g, rfl, rfl, hfg, _, _⟩ := h
  rw [(On.peek_eq hfg).1] at htoken
  rw [(On.peek_eq hfg).1, (On.peek_eq hfg).2]
  have hposition := hfg.position F.lockstep (by rw [htoken]; simpa using hinline.2)
  simpa only [Supply.position, Supply.top_withTop] using hposition

theorem On.isUsing (h : F.On R s t) (name : String) : s.isUsing name = t.isUsing name := by
  obtain ⟨f, g, rfl, rfl, hfg, _, _⟩ := h
  simp only [Supply.isUsing, Supply.frames_withTop, List.any_cons, Frame.isUseOf_of_isFile hfg.left,
    Frame.isUseOf_of_isFile hfg.right, F.isUsing]

theorem On.follows (halike : DefinesAlike F.T) (h : F.On F.T s t) : s.DefinesAlike t := by
  refine Supply.definesAlike_of_top halike (h.lineEnded.1.trans h.lineEnded.2.symm) fun _ => ?_
  obtain ⟨f, g, rfl, rfl, hfg, _, _⟩ := h
  simpa only [Supply.top_withTop] using hfg

/-- The files that are read in a pairing. -/
def pairing (F : Firm) : Pairing where
  toLikeness := F.toLikeness
  uses := .any F.near
  Ready := F.On F.T
  Rested := F.On F.D
  Settled := F.On F.E
  Apt := F.Apt
  rested h := h.mono F.lockstep.rest
  settled h := h.mono F.settled
  ended h _ _ := h.lineEnded.1.trans h.lineEnded.2.symm
  isFile h := ⟨fun _ => h.isFile.1, fun _ => h.isFile.2⟩
  isUsing h := h.isUsing
  peek h := h.peek
  eat h hinline := h.eat hinline
  eatLine h hline := h.eatLine hline
  position h htoken hinline := h.position htoken hinline
  follows := F.follows.imp_right fun h => ⟨h.1, fun hready => hready.follows h.2⟩
  free _ _ _ := trivial

/-- No included file comes to its end within a line. -/
theorem not_carried : ¬F.pairing.Carried s t := by
  rintro ⟨_, _, s₀, _, hs₀, _, _, _, _, hready⟩
  rw [(On.lineEnded hready).1] at hs₀
  cases hs₀

theorem on_of_after (h : F.pairing.After s t) : F.On F.D s t := h.resolve_right not_carried

theorem between_cases (h : F.pairing.Between s t) : F.On F.E s t ∨ F.pairing.Within s t :=
  h.imp_right fun h => h.resolve_right not_carried

end Firm

/-! ## All files -/

/-- All files are in step. -/
structure Synced extends Likeness where
  /-- How a file is in step within a line, and after one, by where it is. -/
  T : Option Route → List Round → List Round → Prop
  D : Option Route → List Round → List Round → Prop
  /-- How the script itself is in step. -/
  W : List Round → List Round → Prop
  Apt : Directive → Supply → Prop
  lockstep : ∀ route, Lockstep near (T route) (D route)
  whole : Lockstep near W W
  top : ∀ {route as bs}, W as bs → T route as bs
  follows : (∀ p q, near p q → p = q) ∨
    ((∀ s, Apt .define s → s.top.isFile = true) ∧ ∀ route, DefinesAlike (T route))

namespace Synced

variable (S : Synced)

/-- Sources that lie below another one. -/
def Deep (f g : Frame) : Prop := UseNear S.near f g ∨ FilePair (S.D f.route?) f g ∧ f.route? = g.route?

/-- All sources are in step. -/
structure Rested (s t : Supply) : Prop where
  lineEnded : s.lineEnded = t.lineEnded
  stack : List.Forall₂ S.Deep s.stack t.stack
  root : FilePair S.W s.root t.root
  route : s.root.route? = t.root.route?

/-- All sources are in step, and the topmost ones are files. -/
structure Ready (s t : Supply) : Prop extends S.Rested s t where
  top : s.lineEnded = false → FilePair (S.T s.top.route?) s.top t.top

variable {S} {s t : Supply}

variable {f g root root' : Frame}

theorem Deep.route (h : S.Deep f g) : f.route? = g.route? :=
  h.elim (fun h => h.akin.route?) fun h => h.2

theorem Deep.isUseOf (h : S.Deep f g) (name : String) : f.isUseOf name = g.isUseOf name := by
  rcases h with huse | ⟨hfile, _⟩
  · exact huse.akin.isUseOf name
  · rw [Frame.isUseOf_of_isFile hfile.left, Frame.isUseOf_of_isFile hfile.right]

/-- The files below an included file that has come to its end. -/
theorem Ready.cases (h : S.Ready s t) :
    (s.lineEnded = true ∧ t.lineEnded = true) ∨
    (∃ root root' f g fs gs, s = ⟨root, f :: fs, false⟩ ∧ t = ⟨root', g :: gs, false⟩ ∧
      FilePair (S.T f.route?) f g ∧ f.route? = g.route? ∧ List.Forall₂ S.Deep fs gs) ∨
    (∃ root root', s = ⟨root, [], false⟩ ∧ t = ⟨root', [], false⟩) := by
  obtain ⟨root, stack, lineEnded⟩ := s
  obtain ⟨root', stack', lineEnded'⟩ := t
  obtain rfl : lineEnded = lineEnded' := h.lineEnded
  cases lineEnded with
  | true => exact .inl ⟨rfl, rfl⟩
  | false =>
    have hstack : List.Forall₂ S.Deep stack stack' := h.stack
    have htop := h.top rfl
    cases hstack with
    | nil => exact .inr (.inr ⟨root, root', rfl, rfl⟩)
    | cons hfg hrest =>
      exact .inr (.inl ⟨root, root', _, _, _, _, rfl, rfl, htop, hfg.route, hrest⟩)

theorem peek_file (fs : List Frame) (h : f.peek.1 ≠ .ok .fileEnd) :
    (⟨root, f :: fs, false⟩ : Supply).peek = (f.peek.1, ⟨root, f.peek.2 :: fs, false⟩) :=
  Supply.peek_withTop (s := ⟨root, f :: fs, false⟩) rfl (.inl h)

theorem peek_root (root : Frame) :
    (⟨root, [], false⟩ : Supply).peek = (root.peek.1, ⟨root.peek.2, [], false⟩) := rfl

/-- The end of an included file ends the line. -/
theorem peek_fileEnd (fs : List Frame) (hfile : f.isFile = true) (h : f.peek.1 = .ok .fileEnd) :
    (⟨root, f :: fs, false⟩ : Supply).peek = (.ok .lineEnd, ⟨root, fs, true⟩) := by
  rw [Supply.peek_of_not rfl]
  simp [Supply.peekStack, h, hfile]

theorem Ready.of_lineEnded (h : S.Rested s t) (hline : s.lineEnded = true) : S.Ready s t :=
  ⟨h, fun hnot => by rw [hline] at hnot; cases hnot⟩

theorem Ready.of_file {fs gs : List Frame} {line line' : Bool}
    (h : S.Rested ⟨root, fs, line⟩ ⟨root', gs, line'⟩) (hfg : FilePair (S.T f.route?) f g)
    (hroute : f.route? = g.route?) : S.Ready ⟨root, f :: fs, false⟩ ⟨root', g :: gs, false⟩ :=
  ⟨⟨rfl, .cons (.inr ⟨hfg.rest (S.lockstep _), hroute⟩) h.stack, h.root, h.route⟩, fun _ => hfg⟩

theorem Ready.of_root (h : FilePair S.W root root') (hroute : root.route? = root'.route?) :
    S.Ready ⟨root, [], false⟩ ⟨root', [], false⟩ :=
  ⟨⟨rfl, .nil, h, hroute⟩, fun _ => ⟨h.left, h.right, S.top h.ahead⟩⟩

theorem Ready.peek (h : S.Ready s t) : s.peek.1 = t.peek.1 ∧ S.Ready s.peek.2 t.peek.2 := by
  rcases h.cases with ⟨hs, ht⟩ | ⟨root, root', f, g, fs, gs, rfl, rfl, hfg, hroute, hrest⟩ |
    ⟨root, root', rfl, rfl⟩
  · rw [Supply.peek_of_lineEnded hs, Supply.peek_of_lineEnded ht]
    exact ⟨rfl, h⟩
  · have hbelow : S.Rested ⟨root, fs, true⟩ ⟨root', gs, true⟩ := ⟨rfl, hrest, h.root, h.route⟩
    have hread := hfg.peek_fst (S.lockstep _)
    by_cases hend : f.peek.1 = .ok .fileEnd
    · rw [peek_fileEnd fs hfg.left hend, peek_fileEnd gs hfg.right (hread ▸ hend)]
      exact ⟨rfl, .of_lineEnded hbelow rfl⟩
    · rw [peek_file fs hend, peek_file gs (hread ▸ hend)]
      refine ⟨hread, .of_file hbelow ?_ (by simpa using hroute)⟩
      rw [Frame.route?_peek]
      exact hfg.peek (S.lockstep _)
  · rw [peek_root, peek_root]
    exact ⟨h.root.peek_fst S.whole, .of_root (h.root.peek S.whole) (by simpa using h.route)⟩

theorem Ready.eat (h : S.Ready s t) (hinline : Reading.Inline s.peek.1) :
    S.Ready s.peek.2.eat t.peek.2.eat := by
  rcases h.cases with ⟨hs, ht⟩ | ⟨root, root', f, g, fs, gs, rfl, rfl, hfg, hroute, hrest⟩ |
    ⟨root, root', rfl, rfl⟩
  · rw [Supply.peek_of_lineEnded hs] at hinline
    exact absurd rfl hinline.1
  · have hbelow : S.Rested ⟨root, fs, true⟩ ⟨root', gs, true⟩ := ⟨rfl, hrest, h.root, h.route⟩
    have hread := hfg.peek_fst (S.lockstep _)
    by_cases hend : f.peek.1 = .ok .fileEnd
    · rw [peek_fileEnd fs hfg.left hend] at hinline
      exact absurd rfl hinline.1
    · rw [peek_file fs hend] at hinline ⊢
      rw [peek_file gs (hread ▸ hend)]
      refine .of_file hbelow ?_ (by simpa using hroute)
      rw [Frame.route?_eat, Frame.route?_peek]
      exact hfg.eat (S.lockstep _) hinline
  · rw [peek_root, peek_root]
    exact .of_root (h.root.eat S.whole hinline) (by simpa using h.route)

theorem Ready.eatLine (h : S.Ready s t) (hline : s.peek.1 = .ok .lineEnd) :
    S.Rested s.peek.2.eat t.peek.2.eat := by
  rcases h.cases with ⟨hs, ht⟩ | ⟨root, root', f, g, fs, gs, rfl, rfl, hfg, hroute, hrest⟩ |
    ⟨root, root', rfl, rfl⟩
  · rw [Supply.peek_of_lineEnded hs, Supply.peek_of_lineEnded ht]
    simp only [Supply.eat, hs, ht, if_true]
    exact ⟨rfl, h.stack, h.root, h.route⟩
  · have hread := hfg.peek_fst (S.lockstep _)
    by_cases hend : f.peek.1 = .ok .fileEnd
    · rw [peek_fileEnd fs hfg.left hend, peek_fileEnd gs hfg.right (hread ▸ hend)]
      exact ⟨rfl, hrest, h.root, h.route⟩
    · rw [peek_file fs hend] at hline ⊢
      rw [peek_file gs (hread ▸ hend)]
      refine ⟨rfl, .cons (.inr ⟨?_, by simpa using hroute⟩) hrest, h.root, h.route⟩
      rw [Frame.route?_eat, Frame.route?_peek]
      exact hfg.eatLine (S.lockstep _) hline
  · rw [peek_root, peek_root]
    refine ⟨rfl, .nil, h.root.eatLine S.whole hline, ?_⟩
    show root.peek.2.eat.route? = root'.peek.2.eat.route?
    simpa using h.route

theorem Ready.position (h : S.Ready s t) {token : Token} (htoken : s.peek.1 = .ok token)
    (hinline : token.Inline) : S.near s.peek.2.position t.peek.2.position := by
  rcases h.cases with ⟨hs, ht⟩ | ⟨root, root', f, g, fs, gs, rfl, rfl, hfg, hroute, hrest⟩ |
    ⟨root, root', rfl, rfl⟩
  · rw [Supply.peek_of_lineEnded hs] at htoken
    exact absurd (Except.ok.inj htoken).symm hinline.1
  · have hread := hfg.peek_fst (S.lockstep _)
    by_cases hend : f.peek.1 = .ok .fileEnd
    · rw [peek_fileEnd fs hfg.left hend] at htoken
      exact absurd (Except.ok.inj htoken).symm hinline.1
    · rw [peek_file fs hend, peek_file gs (hread ▸ hend)]
      exact hfg.position (S.lockstep _) hend
  · refine h.root.position S.whole ?_
    rw [show root.peek.1 = .ok token from htoken]
    simpa using hinline.2

theorem Rested.isUsing (h : S.Rested s t) (name : String) : s.isUsing name = t.isUsing name := by
  have hroot : s.root.isUseOf name = t.root.isUseOf name := by
    rw [Frame.isUseOf_of_isFile h.root.left, Frame.isUseOf_of_isFile h.root.right]
  simp only [Supply.isUsing, Supply.frames, List.any_append, List.any_cons, List.any_nil, hroot]
  congr 1
  have hstack := h.stack
  generalize s.stack = fs at hstack
  generalize t.stack = gs at hstack
  induction hstack with
  | nil => rfl
  | cons hfg _ ih => rw [List.any_cons, List.any_cons, hfg.isUseOf, ih]

theorem Ready.isFile (h : S.Ready s t) : (s.lineEnded = false → s.top.isFile = true) ∧
    (t.lineEnded = false → t.top.isFile = true) :=
  ⟨fun hline => (h.top hline).left, fun hline => (h.top (h.lineEnded.trans hline)).right⟩

/-- The files that are read in a pairing, with some states between statements. -/
def pairing (S : Synced) (Settled : Supply → Supply → Prop)
    (hsettled : ∀ s t, S.Rested s t → Settled s t) : Pairing where
  toLikeness := S.toLikeness
  uses := .any S.near
  Ready := S.Ready
  Rested := S.Rested
  Settled := Settled
  Apt := S.Apt
  rested h := h.toRested
  settled h := hsettled _ _ h
  ended h _ _ := h.lineEnded
  isFile h := h.isFile
  isUsing h := h.toRested.isUsing
  peek h := h.peek
  eat h hinline := h.eat hinline
  eatLine h hline := h.eatLine hline
  position h htoken hinline := h.position htoken hinline
  follows := S.follows.imp_right fun h => ⟨h.1, fun hready =>
    Supply.definesAlike_of_top (h.2 _) hready.lineEnded hready.top⟩
  free _ _ _ := trivial

end Synced

end CartScript
