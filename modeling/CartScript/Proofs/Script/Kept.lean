import CartScript.Proofs.Script.Carried

/-!
# What reading a script keeps

A script is read beside itself.  What the sources of a script keep while tokens are taken from them,
uses of macros are put on top, blocks are skipped and files are included holds in every state that
is reached.
-/

namespace CartScript

/-- What taking tokens, putting uses of macros on top and skipping blocks keep. -/
structure Supply.Kept (I : Supply → Prop) : Prop where
  peek : ∀ {s}, I s → I s.peek.2
  eat : ∀ {s}, I s → s.peek.1 ≠ .ok .fileEnd → I s.peek.2.eat
  push : ∀ {s} {u : Frame}, I s → UseNear Eq u u → I (s.push u)
  skip : ∀ {s}, I s → ∀ stopAtElse, I (s.skipBlock stopAtElse).2

/-- A script beside itself, with statements that are as told. -/
def Supply.Kept.carrier {I : Supply → Prop} (hI : Supply.Kept I) (ok : Statement → Prop) :
    Carrier where
  account := Likeness.account ⟨Eq, fun a b => a = b ∧ ok a.value⟩
  near_eq := rfl
  grow := id
  akin _ := ⟨rfl, rfl, rfl, fun _ => rfl⟩
  eat_grow _ := rfl
  position_grow _ := rfl
  Within := I
  After := I
  Late _ := False
  Apt _ := True
  level _ _ := rfl
  after h := h
  peek_grow _ := rfl
  peek := hI.peek
  eat h hinline := hI.eat h hinline.2
  eatLine h hline := hI.eat h (by rw [hline]; simp)
  push := hI.push

namespace Beside

abbrev diagonal {I : Supply → Prop} (hI : Supply.Kept I) (ok : Statement → Prop := fun _ => True) :
    Beside :=
  (hI.carrier ok).beside

end Beside

namespace Parsing

open Beside

variable {I : Supply → Prop} {env : Environment}

/-- Files that are included keep it. -/
def Includes (I : Supply → Prop) (env : Environment) : Prop :=
  ∀ s path route content, I s → env.tree.resolve path = .ok route →
    (s.frames.any fun f => f.route? == some route) = false → env.tree.read path = .ok content →
    I (s.push (.file (some route) (.ofBytes path content.toList)))

variable {ok : Statement → Prop}

theorem skips_diagonal (hI : Supply.Kept I) {X : Supply → Supply → Prop}
    (hX : ∀ s t, X s t → s = t ∧ I t) (stopAtElse : Bool) :
    Skips (diagonal hI ok) (fun _ => False) X stopAtElse := by
  intro s t h
  obtain ⟨rfl, hs⟩ := hX s t h
  have hskip := hI.skip hs stopAtElse
  right
  cases hblock : s.skipBlock stopAtElse with
  | mk outcome next =>
    rw [hblock] at hskip
    cases outcome with
    | ok found => exact .ok rfl ⟨rfl, hskip⟩
    | error fault =>
      have hnext : (diagonal hI ok).Between next.skipLine next.skipLine :=
        Within.skipLine (B := diagonal hI ok) ⟨rfl, hskip⟩
      exact .error ⟨fun _ _ => rfl, .inr hnext⟩

/-- A turn of a script beside itself. -/
theorem turnRel_diagonal (hI : Supply.Kept I) (hopen : Includes I env)
    (hok : ∀ st : Statement, (env.registry.Consistent → st.Sound env.registry) → ok st)
    {s t : ParseState} (h : (diagonal hI ok).Along (diagonal hI ok).Between s t) :
    TurnRel ((diagonal hI ok).Along (diagonal hI ok).Between) (diagonal hI ok).Told
      (turn env s) (turn env t) := by
  have hfiles : Files (diagonal hI ok) env env.tree := by
    refine Carrier.files _ .inl (hopen _ _ _ _) fun p content => ⟨rfl, hok _ fun _ => ?_⟩
    exact sound_of_exprs (by simp) (by simp [Statement.exprs]) (by simp)
  have hcross : Crosses (diagonal hI ok) (fun _ => False) env env.tree := by
    refine .of_files ?_ (fun _ _ => hfiles) (fun _ _ => ?_) ?_
    · exact fun hpq statement hsound => ⟨by rw [show _ = _ from hpq], hok statement hsound⟩
    · exact skips_diagonal hI (X := (diagonal hI ok).After) (fun _ _ h => h) true
    refine skips_diagonal hI ?_ false
    rintro s t ⟨s₀, t₀, ⟨rfl, h⟩, _, _, ht, rfl, rfl⟩
    exact ⟨rfl, (hI.carrier ok).eat_of_peek h ht (.directive _)⟩
  exact hcross.turnRel ⟨h, fun _ _ _ => trivial⟩ (fun _ _ _ => trivial) fun _ _ _ => id

/-- A turn keeps it. -/
theorem kept_of_turn (hI : Supply.Kept I) (hopen : Includes I env) {s next : ParseState}
    (h : (diagonal hI).Along (diagonal hI).Between s s) (hturn : turn env s = .on next) :
    (diagonal hI).Along (diagonal hI).Between next next := by
  have hrel := turnRel_diagonal hI hopen (fun _ _ => trivial) h
  rw [hturn] at hrel
  cases hrel with
  | on h => exact h

/-- What reading keeps holds in every state that is reached from one that has it. -/
theorem kept_along (hI : Supply.Kept I) (hopen : Includes I env) {s t : ParseState} {n : Nat}
    (hs : (diagonal hI).Along (diagonal hI).Between s s) (h : Reaches env n s t) :
    (diagonal hI).Along (diagonal hI).Between t t :=
  h.invariant (P := fun s => (diagonal hI).Along (diagonal hI).Between s s) hs
    fun _ _ hu hturn => kept_of_turn hI hopen hu hturn

/-- What the start has and reading keeps holds in every state that is reached. -/
theorem kept_of_reaches (hI : Supply.Kept I) (hopen : Includes I env) {script : Script}
    {defines : List (String × Int64)} (hstart : I (script.start defines).supply) {n : Nat}
    {s : ParseState} (h : Reaches env n (script.start defines) s) :
    (diagonal hI).Along (diagonal hI).Between s s :=
  kept_along hI hopen
    ⟨⟨rfl, hstart⟩, Script.predefined_near (fun _ => rfl) defines, rfl, .nil, .nil⟩ h

/-- What reading keeps holds after a token was looked at. -/
theorem kept_of_peek (hI : Supply.Kept I) {s next : ParseState} {token : Token} {limit : Nat}
    (h : (diagonal hI).Along (diagonal hI).Between s s) (hpeek : peek limit s = .ok token next) :
    (diagonal hI).Facing token next next := by
  have halike := agree_peek (B := diagonal hI) limit s s ⟨h, fun _ _ _ => trivial⟩
  rw [hpeek] at halike
  exact halike.get

end Parsing

end CartScript
