import CartScript.Proofs.Script.Turns

/-!
# Uses of macros on top of files

Uses of macros lie on top of the files that they stand in, and they are read alike on two sides that
have the same macros.  What two scripts differ in is their files.  A `Pairing` says what the files of
two scripts promise each other; `Pairing.beside` adds the uses on top of them.
-/

namespace CartScript

/-! ## Uses of macros -/

/-- Rounds with the same outcome at positions that may differ. -/
def TextStream.Round.Near (near : Position → Position → Prop) (a b : TextStream.Round) : Prop :=
  a.outcome = b.outcome ∧ near a.position b.position

variable {f g : Frame}

theorem Frame.Akin.symm (h : f.Akin g) : g.Akin f :=
  ⟨h.isFile.symm, h.expands.symm, h.route?.symm, fun name => (h.isUseOf name).symm⟩

/-- What is left of sources of the same kind is of the same kind. -/
theorem Frame.Akin.peek_peek (h : f.Akin g) : f.peek.2.Akin g.peek.2 :=
  (Frame.Akin.peek f).trans (h.trans (Frame.Akin.peek g).symm)

theorem Frame.Akin.eat_eat (h : f.Akin g) : f.eat.Akin g.eat :=
  (Frame.Akin.eat f).trans (h.trans (Frame.Akin.eat g).symm)

theorem Frame.route?_of_use (h : f.isFile = false) : f.route? = none := by
  cases f with
  | file route text => cases h
  | expansion name e | replay e => rfl

/-- Reading a use of a macro does not fail. -/
theorem Frame.peek_of_use (h : f.isFile = false) : ∃ token, f.peek.1 = .ok token := by
  cases f with
  | file route text => cases h
  | expansion name e | replay e => exact ⟨_, Expansion.peek_fst e⟩

/-- Uses of macros that have the same tokens ahead. -/
structure UseNear (near : Position → Position → Prop) (u v : Frame) : Prop where
  akin : u.Akin v
  isFile : u.isFile = false
  ahead : List.Forall₂ (TextStream.Round.Near near) u.ahead v.ahead
  inline : ∀ r ∈ u.ahead, Reading.Inline r.outcome

namespace UseNear

variable {near : Position → Position → Prop} {u v : Frame}

theorem peek (h : UseNear near u v) : UseNear near u.peek.2 v.peek.2 := by
  obtain ⟨token, htoken⟩ := Frame.peek_of_use h.isFile
  obtain ⟨token', htoken'⟩ := Frame.peek_of_use (h.akin.isFile ▸ h.isFile : v.isFile = false)
  have hu := Frame.ahead_peek htoken
  have hv := Frame.ahead_peek htoken'
  exact ⟨h.akin.peek_peek, by rw [Frame.isFile_peek, h.isFile], by rw [hu, hv]; exact h.ahead,
    by rw [hu]; exact h.inline⟩

/-- Both uses have come to their end, or both have the same token next. -/
theorem cases (h : UseNear near u v) :
    (u.peek.1 = .ok .fileEnd ∧ v.peek.1 = .ok .fileEnd) ∨
      (u.peek.1 = v.peek.1 ∧ Reading.Inline u.peek.1 ∧ near u.peek.2.position v.peek.2.position ∧
        UseNear near u.peek.2.eat v.peek.2.eat) := by
  obtain ⟨hakin, hfile, hahead, hinline⟩ := h
  cases hu : u.ahead with
  | nil =>
    rw [hu] at hahead
    cases hv : v.ahead with
    | nil => exact .inl ⟨Frame.peek_of_ahead_nil hu, Frame.peek_of_ahead_nil hv⟩
    | cons b bs =>
      rw [hv] at hahead
      cases hahead
  | cons a as =>
    rw [hu] at hahead hinline
    cases hv : v.ahead with
    | nil =>
      rw [hv] at hahead
      cases hahead
    | cons b bs =>
      rw [hv] at hahead
      cases hahead with
      | cons hab hrest =>
        obtain ⟨hread, hposition, hnext, _⟩ := Frame.peek_of_ahead hu
        obtain ⟨hread', hposition', hnext', _⟩ := Frame.peek_of_ahead hv
        obtain ⟨hfirst, hmore⟩ := List.forall_mem_cons.1 hinline
        refine .inr ⟨?_, ?_, ?_, hakin.peek_peek.eat_eat, by simpa using hfile, ?_, ?_⟩
        · rw [hread, hread', hab.1]
        · rw [hread]
          exact hfirst
        · rw [hposition, hposition']
          exact hab.2
        · rw [hnext, hnext']
          exact hrest
        · rw [hnext]
          exact hmore

end UseNear

section Expansions

variable {near : Position → Position → Prop}

variable {args args' : List Argument} {as bs : List (Located Token)} {m n : Macro}

theorem roundsOf_near (h : List.Forall₂ (Located.Near near) as bs) :
    List.Forall₂ (TextStream.Round.Near near) (Frame.roundsOf as) (Frame.roundsOf bs) := by
  induction h with
  | nil => exact .nil
  | cons hab _ ih => exact .cons ⟨congrArg Except.ok hab.2, hab.1⟩ ih

/-- Sources of the same tokens. -/
theorem useNear_of_tokens {u v : Frame} (hakin : u.Akin v) (hfile : u.isFile = false)
    (hu : u.ahead = Frame.roundsOf as) (hv : v.ahead = Frame.roundsOf bs)
    (h : ArgumentNear near as bs) : UseNear near u v := by
  refine ⟨hakin, hfile, by rw [hu, hv]; exact roundsOf_near h.tokens, fun r hr => ?_⟩
  rw [hu] at hr
  obtain ⟨token, htoken, rfl⟩ := List.mem_map.1 hr
  exact Reading.inline_ok.2 (h.inline token htoken)

theorem ArgumentNear.inline_right {as bs : Argument} (h : ArgumentNear near as bs) :
    ∀ token ∈ bs, token.value.Inline := by
  obtain ⟨htokens, hinline⟩ := h
  induction htokens with
  | nil => simp
  | cons hab _ ih =>
    obtain ⟨hfirst, hrest⟩ := List.forall_mem_cons.1 hinline
    exact List.forall_mem_cons.2 ⟨hab.2 ▸ hfirst, ih hrest⟩

theorem ArgumentNear.append {as bs as' bs' : Argument} (h : ArgumentNear near as bs)
    (h' : ArgumentNear near as' bs') : ArgumentNear near (as ++ as') (bs ++ bs') :=
  ⟨List.rel_append h.tokens h'.tokens,
    fun token htoken => (List.mem_append.1 htoken).elim (h.inline token) (h'.inline token)⟩

theorem argumentNear_getD (h : List.Forall₂ (ArgumentNear near) args args') (index : Nat) :
    ArgumentNear near (args.getD index []) (args'.getD index []) := by
  induction h generalizing index with
  | nil => exact ⟨.nil, by simp⟩
  | cons hab _ ih =>
    cases index with
    | zero => exact hab
    | succ index => exact ih index

/-- A body with its arguments in place. -/
theorem argumentNear_substitute (hm : m.Near near n)
    (hargs : List.Forall₂ (ArgumentNear near) args args') :
    ArgumentNear near (substitute m.body args) (substitute n.body args') := by
  have hbody := hm.body
  have hinline := hm.inline
  generalize m.body = as at hbody hinline
  generalize n.body = bs at hbody
  induction hbody with
  | nil => exact ⟨.nil, by simp [substitute]⟩
  | @cons a b as bs hab _ ih =>
    obtain ⟨hfirst, hrest⟩ := List.forall_mem_cons.1 hinline
    simp only [substitute, List.flatMap_cons]
    refine ArgumentNear.append ?_ (ih hrest)
    obtain ⟨p, piece⟩ := a
    obtain ⟨q, piece'⟩ := b
    obtain ⟨hpq, rfl⟩ : near p q ∧ piece = piece' := hab
    cases piece with
    | token token =>
      refine ⟨.cons ⟨hpq, rfl⟩ .nil, fun item hitem => ?_⟩
      obtain rfl := List.mem_singleton.1 hitem
      exact hfirst token rfl
    | argument index => exact argumentNear_getD hargs index

theorem useNear_expansion (hm : m.Near near n) (hargs : List.Forall₂ (ArgumentNear near) args args') :
    UseNear near (.expansion m.name (.ofMacro m args)) (.expansion n.name (.ofMacro n args')) := by
  have htokens := argumentNear_substitute hm hargs
  refine useNear_of_tokens ⟨rfl, rfl, rfl, fun name => ?_⟩ rfl ?_ ?_ htokens
  · simp only [Frame.isUseOf, hm.name]
  · rw [Frame.ahead_expansion, Expansion.tokens_ofMacro]
    rw [Expansion.tokens_ofMacro]
    exact fun token htoken => (htokens.inline token htoken).2
  · rw [Frame.ahead_expansion, Expansion.tokens_ofMacro]
    rw [Expansion.tokens_ofMacro]
    exact fun token htoken => (htokens.inline_right token htoken).2

theorem useNear_replay {name : String} {a b : Located Token} (h : a.Near near b) (ha : a.value.Inline) :
    UseNear near (.replay (.ofToken name a)) (.replay (.ofToken name b)) := by
  have hnear : ArgumentNear near [a] [b] := ⟨.cons h .nil, by simpa using ha⟩
  refine useNear_of_tokens ⟨rfl, rfl, rfl, fun _ => rfl⟩ rfl ?_ ?_ hnear
  · rw [Frame.ahead_replay, Expansion.tokens_ofToken]
    simpa [Expansion.tokens_ofToken] using ha.2
  · rw [Frame.ahead_replay, Expansion.tokens_ofToken]
    simpa [Expansion.tokens_ofToken, ← h.2] using ha.2

end Expansions

/-- Uses of macros that are read alike. -/
structure Uses (near : Position → Position → Prop) where
  /-- Uses that may lie on top. -/
  Use : Frame → Frame → Prop
  /-- What a macro of this name may be. -/
  Known : String → Macro → Prop
  /-- Which macros may be used. -/
  Free : Macro → Prop
  ahead : ∀ {u v}, Use u v → UseNear near u v
  peek : ∀ {u v}, Use u v → Use u.peek.2 v.peek.2
  eat : ∀ {u v}, Use u v → Reading.Inline u.peek.1 → Use u.peek.2.eat v.peek.2.eat
  free : ∀ {u v} {name : String} {m : Macro}, Use u v → u.peek.1 = .ok (.name name) →
    Known name m → Free m
  plain : ∀ {m n : Macro}, Free m → m.params = none → m.Near near n →
    Use (.expansion m.name (.ofMacro m [])) (.expansion n.name (.ofMacro n []))
  call : ∀ {m n : Macro} {args args' : List Argument}, Free m → m.params ≠ none → m.Near near n →
    List.Forall₂ (ArgumentNear near) args args' →
    Use (.expansion m.name (.ofMacro m args)) (.expansion n.name (.ofMacro n args'))
  replay : ∀ {m : Macro} {a b : Located Token}, Free m → m.params ≠ none → a.Near near b →
    a.value = .name m.name → Use (.replay (.ofToken m.name a)) (.replay (.ofToken m.name b))

/-- Uses of any macros. -/
def Uses.any (near : Position → Position → Prop) : Uses near where
  Use := UseNear near
  Known _ _ := True
  Free _ := True
  ahead h := h
  peek h := h.peek
  eat h hinline := by
    rcases h.cases with ⟨hend, _⟩ | ⟨_, _, _, heat⟩
    · exact absurd hend hinline.2
    · exact heat
  free _ _ _ := trivial
  plain _ _ hm := useNear_expansion hm .nil
  call _ _ hm hargs := useNear_expansion hm hargs
  replay _ _ hab hname := useNear_replay hab (by rw [hname]; exact ⟨by simp, by simp⟩)

/-- A block is skipped alike in both uses. -/
theorem Uses.skipBlock {near : Position → Position → Prop} (U : Uses near) {u v : Frame}
    (huv : U.Use u v) (stopAtElse : Bool) (depth : Nat) :
    (u.skipBlock stopAtElse depth).1 = (v.skipBlock stopAtElse depth).1 ∧
      U.Use (u.skipBlock stopAtElse depth).2 (v.skipBlock stopAtElse depth).2 := by
  rcases (U.ahead huv).cases with ⟨hend, hend'⟩ | ⟨hread, hinline, _, _⟩
  · rw [Frame.skipBlock_of_fileEnd hend, Frame.skipBlock_of_fileEnd hend']
    exact ⟨rfl, U.peek huv⟩
  · have heat := U.eat huv hinline
    rw [Frame.skipBlock_of_ne hinline.2, Frame.skipBlock_of_ne (hread ▸ hinline.2), ← hread]
    cases Frame.skipStep stopAtElse depth u.peek.1 with
    | inl found => exact ⟨rfl, heat⟩
    | inr depth => exact U.skipBlock heat stopAtElse depth
termination_by u.remaining
decreasing_by exact u.remaining_eat_lt hinline.2

/-! ## Files -/

/-- Files that are read side by side. -/
structure Pairing extends Likeness where
  uses : Uses near
  /-- Within a line, without uses on top. -/
  Ready : Supply → Supply → Prop
  /-- After a line. -/
  Rested : Supply → Supply → Prop
  /-- Between statements. -/
  Settled : Supply → Supply → Prop
  /-- Where a directive may stand. -/
  Apt : Directive → Supply → Prop
  rested : ∀ {s t}, Ready s t → Rested s t
  settled : ∀ {s t}, Rested s t → Settled s t
  /-- Both lines are ended, unless no macro with parameters may be used. -/
  ended : ∀ {s t} {m : Macro}, Ready s t → uses.Free m → m.params ≠ none → s.lineEnded = t.lineEnded
  isFile : ∀ {s t}, Ready s t → (s.lineEnded = false → s.top.isFile = true) ∧
    (t.lineEnded = false → t.top.isFile = true)
  isUsing : ∀ {s t}, Ready s t → ∀ name, s.isUsing name = t.isUsing name
  peek : ∀ {s t}, Ready s t → s.peek.1 = t.peek.1 ∧ Ready s.peek.2 t.peek.2
  eat : ∀ {s t}, Ready s t → Reading.Inline s.peek.1 → Ready s.peek.2.eat t.peek.2.eat
  eatLine : ∀ {s t}, Ready s t → s.peek.1 = .ok .lineEnd → Rested s.peek.2.eat t.peek.2.eat
  position : ∀ {s t} {token : Token}, Ready s t → s.peek.1 = .ok token → token.Inline →
    near s.peek.2.position t.peek.2.position
  /-- Where positions differ, macros are defined in files only. -/
  follows : (∀ p q, near p q → p = q) ∨ ((∀ s, Apt .define s → s.top.isFile = true) ∧
    ∀ {s t}, Ready s t → s.DefinesAlike t)
  free : ∀ {s t} {name : String} {m : Macro}, Ready s t → s.peek.1 = .ok (.name name) →
    uses.Known name m → uses.Free m

namespace Pairing

variable (P : Pairing)

/-- Within a line, with uses on top.  They lie on top of both sides at the same place. -/
def Within (s t : Supply) : Prop :=
  ∃ us us' s₀ t₀, (us = [] ∨ s₀.lineEnded = t₀.lineEnded) ∧ s = s₀.put us ∧ t = t₀.put us' ∧
    List.Forall₂ P.uses.Use us us' ∧ P.Ready s₀ t₀

/-- After the end of an included file that had a use put on top of it. -/
def Carried (s t : Supply) : Prop :=
  ∃ us us' s₀ t₀, s₀.lineEnded = true ∧ t₀.lineEnded = true ∧ s = s₀.eat.put us ∧
    t = t₀.eat.put us' ∧ List.Forall₂ P.uses.Use us us' ∧ P.Ready s₀ t₀

/-- After a line, with uses on top. -/
def After (s t : Supply) : Prop := P.Rested s t ∨ P.Carried s t

/-- Between statements, with uses on top. -/
def Between (s t : Supply) : Prop := P.Settled s t ∨ P.Within s t ∨ P.Carried s t

variable {P} {s t : Supply}

theorem Within.of_ready (h : P.Ready s t) : P.Within s t := ⟨[], [], s, t, .inl rfl, rfl, rfl, .nil, h⟩

/-- What is next comes from a use on top. -/
def FromUse (P : Pairing) (s t : Supply) : Prop :=
  ∃ us us' u v s₀ t₀, s₀.lineEnded = false ∧ t₀.lineEnded = false ∧ List.Forall₂ P.uses.Use us us' ∧
    P.uses.Use u v ∧ P.Ready s₀ t₀ ∧ Reading.Inline u.peek.1 ∧
    s.peek = (u.peek.1, s₀.put (u.peek.2 :: us)) ∧ t.peek = (v.peek.1, t₀.put (v.peek.2 :: us'))

/-- What is next comes from the files. -/
def FromFile (P : Pairing) (s t : Supply) : Prop :=
  ∃ s₀ t₀, P.Ready s₀ t₀ ∧ s.peek = s₀.peek ∧ t.peek = t₀.peek

/-- What is next is the end of the line, which an included file has left. -/
def Ended (P : Pairing) (s t : Supply) : Prop :=
  ∃ us us' s₀ t₀, s₀.lineEnded = true ∧ t₀.lineEnded = true ∧ s = s₀.put us ∧ t = t₀.put us' ∧
    List.Forall₂ P.uses.Use us us' ∧ P.Ready s₀ t₀

variable {name : String} {u v : Frame} {us us' : List Frame} {token : Token}

theorem cases_put (h : P.Ready s t) (hs : s.lineEnded = false) (ht : t.lineEnded = false)
    (huses : List.Forall₂ P.uses.Use us us') :
    P.FromUse (s.put us) (t.put us') ∨ P.FromFile (s.put us) (t.put us') := by
  induction huses with
  | nil => exact .inr ⟨s, t, h, rfl, rfl⟩
  | @cons u v us us' huv huses ih =>
    have hv : v.isFile = false := (P.uses.ahead huv).akin.isFile ▸ (P.uses.ahead huv).isFile
    rcases (P.uses.ahead huv).cases with ⟨hend, hend'⟩ | ⟨hread, hinline, _, _⟩
    -- Uses that have come to their end are taken off on both sides.
    · unfold FromUse FromFile
      rw [Supply.peek_put_cons_end hs (P.uses.ahead huv).isFile hend,
        Supply.peek_put_cons_end ht hv hend']
      exact ih
    · refine .inl ⟨us, us', u, v, s, t, hs, ht, huses, huv, h, hinline, ?_, ?_⟩
      · exact Supply.peek_put_cons hs hinline.2 us
      · exact Supply.peek_put_cons ht (hread ▸ hinline.2) us'

/-- Where the next token comes from. -/
theorem Within.cases (h : P.Within s t) : P.FromUse s t ∨ P.FromFile s t ∨ P.Ended s t := by
  obtain ⟨us, us', s₀, t₀, hended, rfl, rfl, huses, hready⟩ := h
  cases huses with
  | nil => exact .inr (.inl ⟨s₀, t₀, hready, rfl, rfl⟩)
  | cons huv huses =>
    have hboth : s₀.lineEnded = t₀.lineEnded := hended.resolve_left (by simp)
    cases hline : s₀.lineEnded with
    | true =>
      exact .inr (.inr ⟨_, _, s₀, t₀, hline, hboth ▸ hline, rfl, rfl, .cons huv huses, hready⟩)
    | false => exact (cases_put hready hline (hboth ▸ hline) (.cons huv huses)).imp_right .inl

/-! ### Reading with uses on top -/

theorem Ended.peek (h : P.Ended s t) : s.peek = (.ok .lineEnd, s) ∧ t.peek = (.ok .lineEnd, t) := by
  obtain ⟨us, us', s₀, t₀, hs, ht, rfl, rfl, _, _⟩ := h
  exact ⟨Supply.peek_of_lineEnded hs, Supply.peek_of_lineEnded ht⟩

theorem Within.peek (h : P.Within s t) : s.peek.1 = t.peek.1 ∧ P.Within s.peek.2 t.peek.2 := by
  rcases h.cases with ⟨us, us', u, v, s₀, t₀, hs, ht, huses, huv, hready, hinline, hpeek, hpeek'⟩ |
    ⟨s₀, t₀, hready, hpeek, hpeek'⟩ | hended
  · rw [hpeek, hpeek']
    refine ⟨?_, _, _, s₀, t₀, .inr (hs.trans ht.symm), rfl, rfl, .cons (P.uses.peek huv) huses, hready⟩
    rcases (P.uses.ahead huv).cases with ⟨hend, _⟩ | ⟨hread, _⟩
    · exact absurd hend hinline.2
    · exact hread
  · rw [hpeek, hpeek']
    exact (P.peek hready).imp_right .of_ready
  · obtain ⟨hpeek, hpeek'⟩ := hended.peek
    rw [hpeek, hpeek']
    exact ⟨rfl, h⟩

theorem Within.eat (h : P.Within s t) (hinline : Reading.Inline s.peek.1) :
    P.Within s.peek.2.eat t.peek.2.eat := by
  rcases h.cases with ⟨us, us', u, v, s₀, t₀, hs, ht, huses, huv, hready, hfirst, hpeek, hpeek'⟩ |
    ⟨s₀, t₀, hready, hpeek, hpeek'⟩ | hended
  · rw [hpeek, hpeek']
    dsimp only
    rw [Supply.eat_put_cons hs, Supply.eat_put_cons ht]
    exact ⟨_, _, s₀, t₀, .inr (hs.trans ht.symm), rfl, rfl, .cons (P.uses.eat huv hfirst) huses, hready⟩
  · rw [hpeek] at hinline
    rw [hpeek, hpeek']
    exact .of_ready (P.eat hready hinline)
  · rw [hended.peek.1] at hinline
    exact absurd rfl hinline.1

theorem Within.eatLine (h : P.Within s t) (hline : s.peek.1 = .ok .lineEnd) :
    P.After s.peek.2.eat t.peek.2.eat := by
  rcases h.cases with ⟨us, us', u, v, s₀, t₀, hs, ht, huses, huv, hready, hfirst, hpeek, hpeek'⟩ |
    ⟨s₀, t₀, hready, hpeek, hpeek'⟩ | hended
  · rw [hpeek] at hline
    exact absurd hline hfirst.1
  · rw [hpeek] at hline
    rw [hpeek, hpeek']
    exact .inl (P.eatLine hready hline)
  · obtain ⟨hpeek, hpeek'⟩ := hended.peek
    obtain ⟨us, us', s₀, t₀, hs, ht, rfl, rfl, huses, hready⟩ := hended
    rw [hpeek, hpeek']
    refine .inr ⟨us, us', s₀, t₀, hs, ht, ?_, ?_, huses, hready⟩
    · exact Supply.eat_put_of_lineEnded hs us
    · exact Supply.eat_put_of_lineEnded ht us'

theorem Within.atEnd (h : P.Within s t) (hend : s.peek.1 = .ok .fileEnd) :
    P.Rested s.peek.2 t.peek.2 := by
  rcases h.cases with ⟨us, us', u, v, s₀, t₀, hs, ht, huses, huv, hready, hfirst, hpeek, hpeek'⟩ |
    ⟨s₀, t₀, hready, hpeek, hpeek'⟩ | hended
  · rw [hpeek] at hend
    exact absurd hend hfirst.2
  · rw [hpeek, hpeek']
    exact P.rested (P.peek hready).2
  · rw [hended.peek.1] at hend
    cases hend

theorem Within.position (h : P.Within s t) (htoken : s.peek.1 = .ok token) (hinline : token.Inline) :
    P.near s.peek.2.position t.peek.2.position := by
  rcases h.cases with ⟨us, us', u, v, s₀, t₀, hs, ht, huses, huv, hready, hfirst, hpeek, hpeek'⟩ |
    ⟨s₀, t₀, hready, hpeek, hpeek'⟩ | hended
  · rw [hpeek, hpeek']
    rcases (P.uses.ahead huv).cases with ⟨hend, _⟩ | ⟨_, _, hnear, _⟩
    · exact absurd hend hfirst.2
    · exact hnear
  · rw [hpeek] at htoken
    rw [hpeek, hpeek']
    exact P.position hready htoken hinline
  · rw [hended.peek.1] at htoken
    exact absurd (Except.ok.inj htoken).symm hinline.1

/-- Sources that have been looked at, and have a token within the line next. -/
theorem Within.faced (h : P.Within s t) (hinline : token.Inline) (hs : s.peek = (.ok token, s))
    (ht : t.peek = (.ok token, t)) :
    (∃ us us' u v s₀ t₀, s₀.lineEnded = false ∧ t₀.lineEnded = false ∧ List.Forall₂ P.uses.Use us us' ∧
      P.uses.Use u v ∧ P.Ready s₀ t₀ ∧ u.peek.1 = .ok token ∧ s = s₀.put (u :: us) ∧
      t = t₀.put (v :: us') ∧ P.uses.Use u.eat v.eat) ∨
    (P.Ready s t ∧ P.Ready s.eat t.eat ∧ s.lineEnded = false ∧ t.lineEnded = false) := by
  have hfirst : Reading.Inline (.ok token) := Reading.inline_ok.2 hinline
  rcases h.cases with ⟨us, us', u, v, s₀, t₀, hs₀, ht₀, huses, huv, hready, _, hpeek, hpeek'⟩ |
    ⟨s₀, t₀, hready, hpeek, hpeek'⟩ | hended
  · obtain ⟨hread, hsettled⟩ := Prod.mk.inj (hs.symm.trans hpeek)
    obtain ⟨hread', hsettled'⟩ := Prod.mk.inj (ht.symm.trans hpeek')
    have hagain := Frame.peek_peek hread.symm
    have hagain' := Frame.peek_peek hread'.symm
    have heat := P.uses.eat (P.uses.peek huv) (by rw [hagain]; exact hfirst)
    rw [hagain, hagain'] at heat
    exact .inl ⟨us, us', u.peek.2, v.peek.2, s₀, t₀, hs₀, ht₀, huses, P.uses.peek huv, hready,
      by rw [hagain], hsettled, hsettled', heat⟩
  · have hs₀ : s₀.peek = (.ok token, s) := hpeek.symm.trans hs
    have ht₀ : t₀.peek = (.ok token, t) := hpeek'.symm.trans ht
    have hnext := (P.peek hready).2
    have heat := P.eat hready (by rw [hs₀]; exact hfirst)
    rw [hs₀, ht₀] at hnext heat
    exact .inr ⟨hnext, heat, Supply.lineEnded_of_peek (by rw [hs]) hinline.1,
      Supply.lineEnded_of_peek (by rw [ht]) hinline.1⟩
  · rw [hended.peek.1] at hs
    exact absurd (Except.ok.inj (congrArg Prod.fst hs)).symm hinline.1

theorem lineEnded_eat (s : Supply) : s.eat.lineEnded = false := by
  obtain ⟨root, stack, lineEnded⟩ := s
  cases lineEnded with
  | true => rfl
  | false =>
    cases stack with
    | nil | cons f stack => rfl

theorem expands_of_isFile {f : Frame} (h : f.isFile = true) : f.expands = true := by
  cases f with
  | file route text | expansion name e => rfl
  | replay e => cases h

/-- Uses of macros go by what lies on top. -/
theorem Within.uses (h : P.Within s t) (hs : s.peek = (.ok (.name name), s))
    (ht : t.peek = (.ok (.name name), t)) :
    s.expands = t.expands ∧ s.isUsing name = t.isUsing name := by
  rcases h.faced ⟨by simp, by simp⟩ hs ht with
    ⟨us, us', u, v, s₀, t₀, _, _, huses, huv, hready, _, rfl, rfl, _⟩ | ⟨hready, _, hs', ht'⟩
  · refine ⟨(P.uses.ahead huv).akin.expands, ?_⟩
    rw [Supply.isUsing_put, Supply.isUsing_put, P.isUsing hready, List.any_cons, List.any_cons,
      (P.uses.ahead huv).akin.isUseOf]
    congr 2
    clear h hs ht
    induction huses with
    | nil => rfl
    | cons huv _ ih => rw [List.any_cons, List.any_cons, (P.uses.ahead huv).akin.isUseOf, ih]
  · obtain ⟨hfile, hfile'⟩ := P.isFile hready
    exact ⟨(expands_of_isFile (hfile hs')).trans (expands_of_isFile (hfile' ht')).symm,
      P.isUsing hready name⟩

theorem Within.free (h : P.Within s t) {m : Macro} (hs : s.peek = (.ok (.name name), s))
    (hknown : P.uses.Known name m) : P.uses.Free m := by
  rcases h.cases with ⟨us, us', u, v, s₀, t₀, _, _, huses, huv, hready, _, hpeek, _⟩ |
    ⟨s₀, t₀, hready, hpeek, _⟩ | hended
  · exact P.uses.free huv (congrArg Prod.fst (hpeek.symm.trans hs)) hknown
  · exact P.free hready (congrArg Prod.fst (hpeek.symm.trans hs)) hknown
  · rw [hended.peek.1] at hs
    cases congrArg Prod.fst hs

/-- A use is put on top. -/
theorem Within.push (h : P.Within s t) (huv : P.uses.Use u v)
    (hended : ∀ s t, P.Ready s t → s.lineEnded = t.lineEnded) : P.Within (s.push u) (t.push v) := by
  obtain ⟨us, us', s₀, t₀, _, rfl, rfl, huses, hready⟩ := h
  exact ⟨_, _, s₀, t₀, .inr (hended s₀ t₀ hready), rfl, rfl, .cons huv huses, hready⟩

/-- A use is put in the place of its name. -/
theorem Within.replace (h : P.Within s t) (hs : s.peek = (.ok (.name name), s))
    (ht : t.peek = (.ok (.name name), t)) (huv : P.uses.Use u v) :
    P.Within (s.eat.push u) (t.eat.push v) := by
  rcases h.faced ⟨by simp, by simp⟩ hs ht with
    ⟨us, us', u', v', s₀, t₀, hs₀, ht₀, huses, _, hready, _, rfl, rfl, heat⟩ | ⟨_, hready, _, _⟩
  · rw [Supply.eat_put_cons hs₀, Supply.eat_put_cons ht₀]
    exact ⟨_, _, s₀, t₀, .inr (hs₀.trans ht₀.symm), rfl, rfl, .cons huv (.cons heat huses), hready⟩
  · refine ⟨[u], [v], s.eat, t.eat, .inr ?_, rfl, rfl, .cons huv .nil, hready⟩
    rw [lineEnded_eat, lineEnded_eat]

theorem Within.follows (h : P.Within s t) (hapt : P.Apt .define s) : s.DefinesAlike t := by
  intro name hs ht
  rcases P.follows with heq | ⟨hfile, hfollows⟩
  · have heat := h.eat (by rw [hs.define]; exact ⟨by simp, by simp⟩)
    rw [hs.define, ht.define] at heat
    have hfirst := heq _ _ (heat.position hs.name ⟨by simp, by simp⟩)
    have hnext := heat.eat (by rw [hs.name]; exact ⟨by simp, by simp⟩)
    have hsecond := heq _ _ (hnext.position hs.paren ⟨by simp, by simp⟩)
    rw [hfirst, hsecond]
  · rcases h.faced ⟨by simp, by simp⟩ hs.define ht.define with
      ⟨us, us', u, v, s₀, t₀, _, _, _, huv, _, _, rfl, rfl, _⟩ | ⟨hready, _, _, _⟩
    · have htop : u.isFile = true := hfile _ hapt
      rw [(P.uses.ahead huv).isFile] at htop
      cases htop
    · exact hfollows hready name hs ht

/-- Files that are read side by side, with uses of macros on top. -/
def beside (P : Pairing) : Beside where
  toAccount := P.account
  Within := P.Within
  After := P.After
  Between := P.Between
  Known := P.uses.Known
  Free := P.uses.Free
  Apt := P.Apt
  Late _ := False
  level _ _ := rfl
  stands _ _ _ := rfl
  between h := .inr (.inl h)
  after h := h.imp P.settled .inr
  peek h := h.peek
  eat h hinline := h.eat hinline
  eatLine h hline := h.eatLine hline
  atEnd h hend := .inl (h.atEnd hend)
  position h htoken hinline := h.position htoken hinline
  follows h hapt := h.follows hapt
  uses h hs ht := h.uses hs ht
  free h hs hknown _ _ := h.free hs hknown
  pushUse hfree hparams h hs ht hm := h.replace hs ht (P.uses.plain hfree hparams hm)
  pushCall hfree hparams h hm hargs :=
    h.push (P.uses.call hfree hparams hm hargs) fun _ _ hready => P.ended hready hfree hparams
  pushReplay hfree hparams h hab hname :=
    h.push (P.uses.replay hfree hparams hab hname) fun _ _ hready => P.ended hready hfree hparams

/-! ### Blocks that are skipped -/

open Parsing

theorem resumes (h : P.Between s.skipLine t.skipLine) : P.beside.Resumes s t :=
  ⟨fun _ _ => rfl, .inr h⟩

theorem skipAlike_imp {P' : Pairing} (hbetween : ∀ s t, P.Between s t → P'.Between s t)
    {r r' : Except ParseFault Bool × Supply} (h : SkipAlike P.beside r r') :
    SkipAlike P'.beside r r' := by
  cases h with
  | ok hab h => exact .ok hab (hbetween _ _ h)
  | error h => exact .error (resumes (hbetween _ _ (h.2.resolve_left id)))

/-- A block is skipped in a use on top. -/
theorem skipAlike_use (huv : P.uses.Use u v) (stopAtElse : Bool)
    (hok : ∀ u v, P.uses.Use u v → P.Between (s.put (u :: us)) (t.put (v :: us')))
    (hline : ∀ u v, P.uses.Use u v → P.Between (s.put (u :: us)).skipLine (t.put (v :: us')).skipLine) :
    SkipAlike P.beside ((s.put (u :: us)).skipBlock stopAtElse)
      ((t.put (v :: us')).skipBlock stopAtElse) := by
  obtain ⟨houtcome, hnext⟩ := P.uses.skipBlock huv stopAtElse 0
  show SkipAlike P.beside ((u.skipBlock stopAtElse 0).1, s.put ((u.skipBlock stopAtElse 0).2 :: us))
    ((v.skipBlock stopAtElse 0).1, t.put ((v.skipBlock stopAtElse 0).2 :: us'))
  rw [← houtcome]
  cases (u.skipBlock stopAtElse 0).1 with
  | ok found => exact .ok rfl (hok _ _ hnext)
  | error fault => exact .error (resumes (hline _ _ hnext))

variable {Lost : Supply → Prop}

/-- Blocks that are skipped after `#else`. -/
theorem skipsElse
    (hfile : ∀ s t, P.Ready s t → P.Apt .otherwise s → s.peek = (.ok (.directive .otherwise), s) →
      t.peek = (.ok (.directive .otherwise), t) → SkipLost Lost (s.eat.skipBlock false) ∨
        SkipAlike P.beside (s.eat.skipBlock false) (t.eat.skipBlock false)) :
    Skips P.beside Lost (AfterElse P.beside) false := by
  rintro s t ⟨s₁, t₁, hwithin, hapt, hs, ht, rfl, rfl⟩
  rcases Within.faced hwithin ⟨by simp, by simp⟩ hs ht with
    ⟨us, us', u, v, s₀, t₀, hs₀, ht₀, huses, _, hready, _, rfl, rfl, heat⟩ | ⟨hready, _, _, _⟩
  · have hput : ∀ u v, P.uses.Use u v → P.Within (s₀.put (u :: us)) (t₀.put (v :: us')) := fun u v huv =>
      ⟨_, _, s₀, t₀, .inr (hs₀.trans ht₀.symm), rfl, rfl, .cons huv huses, hready⟩
    rw [Supply.eat_put_cons hs₀, Supply.eat_put_cons ht₀]
    refine .inr (skipAlike_use heat false (fun u v huv => .inr (.inl (hput u v huv))) ?_)
    exact fun u v huv => Beside.Within.skipLine (B := P.beside) (hput u v huv)
  · exact hfile s₁ t₁ hready hapt hs ht

end Pairing

end CartScript
