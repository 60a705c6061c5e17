import CartScript.Proofs.Script.Synced

/-!
# The last line of an included file

An included file may have the end of its last line or not.  Without it, looking for the end of the
line takes the file off, so that what follows the line in the same statement sees the files below.
Up to there the line is read alike, as long as no macro with parameters is used in it.
-/

namespace CartScript

open TextStream (Round)
open Parsing

/-- Directives that go on after the end of their line. -/
def Directive.goesOn : Directive → Bool
  | .includeScript | .includeBytes | .ifDefined | .ifUndefined => true
  | _ => false

deriving instance DecidableEq for TextStream.Round

/-- Rounds to which the end of a line was added. -/
def Lengthened (as bs : List Round) : Prop := ∃ p, as = bs ++ [⟨.ok .lineEnd, p⟩]

/-- A file that is longer on the left side by the end of a line. -/
structure LongerFile where
  route : Route
  content : Array UInt8

namespace LongerFile

variable (L : LongerFile)

/-- The same statement, but for the bytes of the file. -/
def Same (a b : Located Statement) : Prop :=
  a = b ∨ a.position = b.position ∧ a.value = .bytes (L.content.push 0x0A) ∧ b.value = .bytes L.content

/-- How files are in step after a line. -/
def Apart (route : Option Route) (as bs : List Round) : Prop :=
  as = bs ∨ route = some L.route ∧ Lengthened as bs

theorem stated_of_eq {env : Environment} {p q : Position} (hpq : p = q) (statement : Statement)
    (_ : env.registry.Consistent → statement.Sound env.registry) :
    L.Same ⟨p, statement⟩ ⟨q, statement⟩ :=
  .inl (by rw [hpq])

/-- Files that are the same but for one. -/
def synced : Synced where
  near := Eq
  same := L.Same
  T route as bs := as = bs ∨ route = some L.route ∧ Lengthened as bs ∧ ∃ r ∈ bs, r.outcome = .ok .lineEnd
  D := L.Apart
  W := Eq
  Apt _ _ := True
  lockstep route :=
    { nil := by
        rintro as bs (rfl | ⟨_, ⟨p, rfl⟩, r, hr, _⟩)
        · exact .rfl
        · exact ⟨by simp, fun hnil => by rw [hnil] at hr; cases hr⟩
      first := by
        rintro a b as bs (h | ⟨_, ⟨p, h⟩, _⟩)
        · obtain ⟨rfl, _⟩ := List.cons.inj h
          exact ⟨rfl, rfl⟩
        · obtain ⟨rfl, _⟩ := List.cons.inj h
          exact ⟨rfl, rfl⟩
      inline := by
        rintro a b as bs (h | ⟨hroute, ⟨p, h⟩, r, hr, hline⟩) hinline
        · exact .inl (List.cons.inj h).2
        · obtain ⟨rfl, rfl⟩ := List.cons.inj h
          refine .inr ⟨hroute, ⟨p, rfl⟩, r, ?_, hline⟩
          rcases List.mem_cons.1 hr with rfl | hr
          · exact absurd hline hinline.1
          · exact hr
      line := by
        rintro a b as bs (h | ⟨hroute, ⟨p, h⟩, _⟩) _
        · exact .inl (List.cons.inj h).2
        · exact .inr ⟨hroute, p, (List.cons.inj h).2⟩
      rest := by
        rintro as bs (h | ⟨hroute, h, _⟩)
        · exact .inl h
        · exact .inr ⟨hroute, h⟩ }
  whole :=
    { nil := by
        rintro as bs rfl
        exact .rfl
      first := by
        rintro a b as bs h
        obtain ⟨rfl, _⟩ := List.cons.inj h
        exact ⟨rfl, rfl⟩
      inline := fun h _ => (List.cons.inj h).2
      line := fun h _ => (List.cons.inj h).2
      rest := fun h => h }
  top h := .inl h
  follows := .inl fun _ _ h => h

theorem skipsAlike_eq : SkipsAlike Eq := by
  rintro as bs rfl stopAtElse depth
  exact ⟨rfl, rfl⟩

theorem skipsAlike_apart (route : Option Route) : SkipsAlike (L.Apart route) := by
  rintro as bs (rfl | ⟨hroute, p, rfl⟩) stopAtElse depth
  · exact ⟨rfl, .inl rfl⟩
  · cases hskip : Frame.skipRounds stopAtElse depth bs with
    | mk outcome rest =>
      cases outcome with
      | ok found =>
        rw [Frame.skipRounds_append_of_ok hskip]
        exact ⟨rfl, .inr ⟨hroute, p, rfl⟩⟩
      | error fault =>
        -- The end of a line is no end of a block.
        have hfault : (Frame.skipRounds stopAtElse depth bs).1 = .error fault := by rw [hskip]
        obtain ⟨depth', hlonger⟩ := Frame.skipRounds_append_of_error hfault [⟨.ok .lineEnd, p⟩]
        rw [hlonger, ← hskip, Frame.skipRounds_of_error hfault]
        exact ⟨rfl, .inl rfl⟩

/-! ## Between statements -/

/-- The left side has come to the end of the file, which the right side has left already. -/
def Extra (s t : Supply) : Prop :=
  ∃ root f fs, s = ⟨root, f :: fs, false⟩ ∧ f.isFile = true ∧ f.ahead = [] ∧
    L.synced.Rested ⟨root, fs, false⟩ t

/-- The left side has the end of the line ahead, which the right side has made of the end of the file. -/
def Halfway (s t : Supply) : Prop :=
  ∃ root f fs p, s = ⟨root, f :: fs, false⟩ ∧ f.isFile = true ∧ f.ahead = [⟨.ok .lineEnd, p⟩] ∧
    t.lineEnded = true ∧ L.synced.Rested ⟨root, fs, true⟩ t

/-- How both sides stand between statements. -/
def Settled (s t : Supply) : Prop := L.synced.Rested s t ∨ L.Extra s t ∨ L.Halfway s t

/-- All files are in step, and the topmost one is not on its last line. -/
abbrev inStep : Pairing := L.synced.pairing L.Settled fun _ _ h => .inl h

/-! ## The last line -/

/-- A file on its last line, with and without the end of that line. -/
structure Last (N : String → Prop) (f g : Frame) : Prop where
  left : f.isFile = true
  right : g.isFile = true
  route : f.route? = some L.route
  route' : g.route? = some L.route
  ahead : Lengthened f.ahead g.ahead
  line : ∀ r ∈ g.ahead, r.outcome ≠ .ok .lineEnd
  named : ∀ r ∈ g.ahead, ∀ name, r.outcome = .ok (.name name) → N name

variable {L} {N : String → Prop} {f g : Frame} {s t : Supply}

/-- The line has come to its end, or has the same round next on both sides. -/
theorem Last.cases (h : L.Last N f g) :
    (g.peek.1 = .ok .fileEnd ∧ f.peek.1 = .ok .lineEnd ∧ f.peek.2.eat.ahead = [] ∧
      ∃ p, f.peek.2.ahead = [⟨.ok .lineEnd, p⟩]) ∨
    (f.peek.1 = g.peek.1 ∧ Reading.Inline f.peek.1 ∧ f.peek.2.position = g.peek.2.position ∧
      L.Last N f.peek.2.eat g.peek.2.eat ∧ ∀ name, f.peek.1 = .ok (.name name) → N name) := by
  obtain ⟨p, hahead⟩ := h.ahead
  cases hg : g.ahead with
  | nil =>
    rw [hg] at hahead
    obtain ⟨hread, _, hnext, _⟩ := Frame.peek_of_ahead hahead
    exact .inl ⟨Frame.peek_of_ahead_nil hg, hread, hnext, p, (Frame.ahead_peek hread).trans hahead⟩
  | cons r rs =>
    have hline := h.line
    have hnamed := h.named
    rw [hg] at hahead hline hnamed
    obtain ⟨hread, hposition, hnext, _⟩ := Frame.peek_of_ahead hahead
    obtain ⟨hread', hposition', hnext', hend⟩ := Frame.peek_of_ahead hg
    obtain ⟨hfirst, hrest⟩ := List.forall_mem_cons.1 hline
    obtain ⟨hname, hnames⟩ := List.forall_mem_cons.1 hnamed
    refine .inr ⟨hread.trans hread'.symm, by rw [hread]; exact ⟨hfirst, hend⟩,
      hposition.trans hposition'.symm, ⟨?_, ?_, ?_, ?_, ⟨p, ?_⟩, ?_, ?_⟩, by rw [hread]; exact hname⟩
    · simpa using h.left
    · simpa using h.right
    · simpa using h.route
    · simpa using h.route'
    · rw [hnext, hnext']
      rfl
    · rw [hnext']
      exact hrest
    · rw [hnext']
      exact hnames

theorem Last.peek (h : L.Last N f g) (hne : g.peek.1 ≠ .ok .fileEnd) :
    L.Last N f.peek.2 g.peek.2 := by
  rcases h.cases with ⟨hend, _⟩ | ⟨hread, _, _, heat, _⟩
  · exact absurd hend hne
  · cases hf : f.peek.1 with
    | ok token =>
      have hahead := Frame.ahead_peek hf
      have hahead' := Frame.ahead_peek (hread ▸ hf)
      exact ⟨by simpa using h.left, by simpa using h.right, by simpa using h.route,
        by simpa using h.route', by rw [hahead, hahead']; exact h.ahead, by rw [hahead']; exact h.line,
        by rw [hahead']; exact h.named⟩
    | error fault =>
      rwa [Frame.eat_peek_error hf, Frame.eat_peek_error (hread ▸ hf)] at heat

/-- The topmost file is on its last line. -/
def OnLast (L : LongerFile) (N : String → Prop) (s t : Supply) : Prop :=
  ∃ root root' f g fs gs, s = ⟨root, f :: fs, false⟩ ∧ t = ⟨root', g :: gs, false⟩ ∧ L.Last N f g ∧
    L.synced.Rested ⟨root, fs, false⟩ ⟨root', gs, false⟩

/-- The last line, up to its end. -/
def Ready (L : LongerFile) (N : String → Prop) (s t : Supply) : Prop := L.OnLast N s t ∨ L.Halfway s t

theorem OnLast.rested (h : L.OnLast N s t) : L.synced.Rested s t := by
  obtain ⟨root, root', f, g, fs, gs, rfl, rfl, hfg, hbelow⟩ := h
  exact ⟨rfl, .cons (.inr ⟨⟨hfg.left, hfg.right, .inr ⟨hfg.route, hfg.ahead⟩⟩,
    hfg.route.trans hfg.route'.symm⟩) hbelow.stack, hbelow.root, hbelow.route⟩

theorem Ready.settled (h : L.Ready N s t) : L.Settled s t :=
  h.elim (fun h => .inl h.rested) fun h => .inr (.inr h)

theorem Halfway.peek (h : L.Halfway s t) :
    s.peek.1 = .ok .lineEnd ∧ t.peek = (.ok .lineEnd, t) ∧ L.Halfway s.peek.2 t ∧
      L.Extra s.peek.2.eat t.eat := by
  obtain ⟨root, f, fs, p, rfl, hfile, hahead, hline, hbelow⟩ := h
  obtain ⟨hread, _, hnext, _⟩ := Frame.peek_of_ahead hahead
  rw [Synced.peek_file fs (by rw [hread]; simp), Supply.peek_of_lineEnded hline]
  refine ⟨hread, rfl, ⟨root, f.peek.2, fs, p, rfl, by simpa using hfile,
    (Frame.ahead_peek hread).trans hahead, hline, hbelow⟩, root, f.peek.2.eat, fs, rfl,
    by simpa using hfile, hnext, ?_⟩
  simp only [Supply.eat, hline, if_true]
  exact ⟨rfl, hbelow.stack, hbelow.root, hbelow.route⟩

/-- Where the line ends, the right side leaves the file. -/
theorem OnLast.peek (h : L.OnLast N s t) :
    (s.peek.1 = .ok .lineEnd ∧ t.peek.1 = .ok .lineEnd ∧ L.Halfway s.peek.2 t.peek.2) ∨
    (s.peek.1 = t.peek.1 ∧ Reading.Inline s.peek.1 ∧ s.peek.2.position = t.peek.2.position ∧
      L.OnLast N s.peek.2 t.peek.2 ∧ L.OnLast N s.peek.2.eat t.peek.2.eat ∧
      ∀ name, s.peek.1 = .ok (.name name) → N name) := by
  obtain ⟨root, root', f, g, fs, gs, rfl, rfl, hfg, hbelow⟩ := h
  rcases hfg.cases with ⟨hend, hread, _, p, hahead⟩ | ⟨hread, hinline, hposition, heat, hname⟩
  · rw [Synced.peek_file fs (by rw [hread]; simp), Synced.peek_fileEnd gs hfg.right hend]
    exact .inl ⟨hread, rfl, root, f.peek.2, fs, p, rfl, by simpa using hfg.left, hahead, rfl, rfl,
      hbelow.stack, hbelow.root, hbelow.route⟩
  · rw [Synced.peek_file fs hinline.2, Synced.peek_file gs (hread ▸ hinline.2)]
    exact .inr ⟨hread, hinline, hposition,
      ⟨root, root', _, _, fs, gs, rfl, rfl, hfg.peek (hread ▸ hinline.2), hbelow⟩,
      ⟨root, root', _, _, fs, gs, rfl, rfl, heat, hbelow⟩, hname⟩

/-! ### Uses of macros -/

/-- The macros of some names have no parameters, and the names in their bodies are such names, too. -/
def Plain (macros : Dictionary Macro) (N : String → Prop) : Prop :=
  ∀ name m, macros.find? name = some m → N name →
    m.params = none ∧ ∀ piece ∈ m.body, ∀ used, piece.value = .token (.name used) → N used

/-- Uses of macros without parameters. -/
def uses (N : String → Prop) : Uses Eq where
  Use u v := UseNear Eq u v ∧ ∀ r ∈ u.ahead, ∀ name, r.outcome = .ok (.name name) → N name
  Known name m := N name →
    m.params = none ∧ ∀ piece ∈ m.body, ∀ used, piece.value = .token (.name used) → N used
  Free m := m.params = none ∧ ∀ piece ∈ m.body, ∀ used, piece.value = .token (.name used) → N used
  ahead h := h.1
  peek := by
    rintro u v ⟨huv, hnames⟩
    obtain ⟨token, htoken⟩ := Frame.peek_of_use huv.isFile
    exact ⟨huv.peek, by rwa [Frame.ahead_peek htoken]⟩
  eat := by
    rintro u v ⟨huv, hnames⟩ hinline
    rw [Frame.ahead_of_ne hinline.2] at hnames
    exact ⟨(Uses.any Eq).eat huv hinline, (List.forall_mem_cons.1 hnames).2⟩
  free := by
    rintro u v name m ⟨huv, hnames⟩ hread hknown
    rw [Frame.ahead_of_ne (by rw [hread]; simp)] at hnames
    exact hknown ((List.forall_mem_cons.1 hnames).1 name hread)
  plain := by
    rintro m n ⟨_, hnames⟩ _ hm
    refine ⟨useNear_expansion hm .nil, fun r hr name hname => ?_⟩
    have htokens := argumentNear_substitute hm .nil
    rw [Frame.ahead_expansion, Expansion.tokens_ofMacro] at hr
    · obtain ⟨token, htoken, rfl⟩ := List.mem_map.1 hr
      exact forall_mem_substitute (P := fun found => ∀ name, found = .name name → N name)
        (fun piece hpiece found hfound name hname => hnames piece hpiece name (hname ▸ hfound))
        (by simp) token htoken name (Except.ok.inj hname)
    · rw [Expansion.tokens_ofMacro]
      exact fun token htoken => (htokens.inline token htoken).2
  call hfree hparams := absurd hfree.1 hparams
  replay hfree hparams := absurd hfree.1 hparams

/-- The last line, with and without its end, and with uses of macros on top. -/
def lastLine (L : LongerFile) (N : String → Prop) : Pairing where
  near := Eq
  same := L.Same
  uses := uses N
  Ready := L.Ready N
  Rested s t := L.Ready N s t ∨ L.Extra s t
  Settled := L.Settled
  Apt d _ := d.goesOn = false
  rested h := .inl h
  settled h := h.elim (fun h => h.settled) fun h => .inr (.inl h)
  ended _ hfree hparams := absurd hfree.1 hparams
  isFile := by
    rintro s t (⟨root, root', f, g, fs, gs, rfl, rfl, hfg, _⟩ |
      ⟨root, f, fs, p, rfl, hfile, _, hline, _⟩)
    · exact ⟨fun _ => hfg.left, fun _ => hfg.right⟩
    · refine ⟨fun _ => hfile, fun hnot => ?_⟩
      rw [hline] at hnot
      cases hnot
  isUsing := by
    rintro s t (⟨root, root', f, g, fs, gs, rfl, rfl, hfg, hbelow⟩ |
      ⟨root, f, fs, p, rfl, hfile, _, _, hbelow⟩) name
    · show (f.isUseOf name || _) = (g.isUseOf name || _)
      rw [Frame.isUseOf_of_isFile hfg.left, Frame.isUseOf_of_isFile hfg.right]
      exact hbelow.isUsing name
    · show (f.isUseOf name || _) = t.isUsing name
      rw [Frame.isUseOf_of_isFile hfile]
      exact hbelow.isUsing name
  peek := by
    rintro s t (h | h)
    · rcases h.peek with ⟨hread, hread', hnext⟩ | ⟨hread, _, _, hnext, _, _⟩
      · exact ⟨hread.trans hread'.symm, .inr hnext⟩
      · exact ⟨hread, .inl hnext⟩
    · obtain ⟨hread, hpeek, hnext, _⟩ := h.peek
      rw [hpeek]
      exact ⟨hread, .inr hnext⟩
  eat := by
    rintro s t (h | h) hinline
    · rcases h.peek with ⟨hread, _, _⟩ | ⟨_, _, _, _, heat, _⟩
      · exact absurd hread hinline.1
      · exact .inl heat
    · exact absurd h.peek.1 hinline.1
  eatLine := by
    rintro s t (h | h) hline
    · rcases h.peek with ⟨_, _, hnext⟩ | ⟨_, hinline, _⟩
      · obtain ⟨_, _, _, hextra⟩ := hnext.peek
        rw [Supply.peek_peek hline] at hextra
        exact .inr hextra
      · exact absurd hline hinline.1
    · obtain ⟨_, hpeek, _, hextra⟩ := h.peek
      rw [hpeek]
      exact .inr hextra
  position := by
    rintro s t token (h | h) htoken hinline
    · rcases h.peek with ⟨hread, _, _⟩ | ⟨_, _, hposition, _⟩
      · exact absurd (Except.ok.inj (htoken.symm.trans hread)) hinline.1
      · exact hposition
    · exact absurd (Except.ok.inj (htoken.symm.trans h.peek.1)) hinline.1
  follows := .inl fun _ _ h => h
  free := by
    rintro s t name m (h | h) hread hknown
    · rcases h.peek with ⟨hread', _, _⟩ | ⟨_, _, _, _, _, hname⟩
      · cases hread.symm.trans hread'
      · exact hknown (hname name hread)
    · cases hread.symm.trans h.peek.1

/-! ### Between statements -/

theorem settled_of_inStep (h : L.inStep.Between s t) : L.Settled s t := by
  rcases h with hsettled | hwithin | hcarried
  · exact hsettled
  · exact .inl (Synced.rested_of_within hwithin)
  · exact .inl (Synced.rested_of_after (.inr hcarried))

theorem settled_of_lastLine (h : (L.lastLine N).Between s t) : L.Settled s t := by
  rcases h with hsettled | ⟨us, us', s₀, t₀, hended, rfl, rfl, huses, hready⟩ |
    ⟨_, _, s₀, t₀, hs₀, _, _, _, _, hready⟩
  · exact hsettled
  · rcases hready with honLast | hhalfway
    · exact .inl (honLast.rested.put (huses.imp fun _ _ h => h.1))
    · -- The right side has the end of the line next, so no use lies on top.
      obtain ⟨root, f, fs, p, rfl, hfile, hahead, hline, hbelow⟩ := hhalfway
      obtain rfl : us = [] := hended.resolve_right fun h => by rw [hline] at h; cases h
      cases huses
      exact .inr (.inr ⟨root, f, fs, p, rfl, hfile, hahead, hline, hbelow⟩)
  · rcases hready with ⟨_, _, _, _, _, _, rfl, _⟩ | ⟨_, _, _, _, rfl, _⟩
    · cases hs₀
    · cases hs₀

/-- Uses of macros on top of a file on its last line. -/
def OverLast (L : LongerFile) (s t : Supply) : Prop :=
  ∃ us us' s₀ t₀, s = s₀.put us ∧ t = t₀.put us' ∧ List.Forall₂ (UseNear Eq) us us' ∧
    L.OnLast (fun _ => True) s₀ t₀

/-- The line has its end in the file, or it is the last one. -/
theorem within_or_overLast (h : L.synced.Rested s t) : L.inStep.Within s t ∨ L.OverLast s t := by
  obtain ⟨us, us', s₀, t₀, rfl, rfl, huses, hrested, htop⟩ := h.split
  have hwithin (hready : L.synced.Ready s₀ t₀) : L.inStep.Within (s₀.put us) (t₀.put us') :=
    ⟨us, us', s₀, t₀, .inr hrested.lineEnded, rfl, rfl, huses, hready⟩
  obtain ⟨root, stack, lineEnded⟩ := s₀
  obtain ⟨root', stack', lineEnded'⟩ := t₀
  obtain rfl : lineEnded = lineEnded' := hrested.lineEnded
  have hstack : List.Forall₂ L.synced.Deep stack stack' := hrested.stack
  cases lineEnded with
  | true => exact .inl (hwithin (.of_lineEnded hrested rfl))
  | false =>
    cases hstack with
    | nil => exact .inl (hwithin (.of_root hrested.root hrested.route))
    | @cons f g fs gs hfg hbelow =>
      have hrest : L.synced.Rested ⟨root, fs, false⟩ ⟨root', gs, false⟩ :=
        ⟨rfl, hbelow, hrested.root, hrested.route⟩
      have hfile : FilePair (L.Apart f.route?) f g := htop.resolve_left (by simp)
      rcases hfile.ahead with hsame | ⟨hroute, hlonger⟩
      · exact .inl (hwithin (.of_file hrest ⟨hfile.left, hfile.right, .inl hsame⟩ hfg.route))
      · by_cases hline : ∃ r ∈ g.ahead, r.outcome = .ok .lineEnd
        · exact .inl (hwithin (.of_file hrest ⟨hfile.left, hfile.right, .inr ⟨hroute, hlonger, hline⟩⟩
            hfg.route))
        · refine .inr ⟨us, us', _, _, rfl, rfl, huses, root, root', f, g, fs, gs, rfl, rfl, ?_, hrest⟩
          exact ⟨hfile.left, hfile.right, hroute, hfg.route ▸ hroute, hlonger,
            fun r hr hend => hline ⟨r, hr, hend⟩, fun _ _ _ _ => trivial⟩

/-- A line is skipped alike. -/
theorem settled_skipLine (h : L.synced.Rested s t) : L.Settled s.skipLine t.skipLine := by
  rcases within_or_overLast h with hwithin | ⟨us, us', s₀, t₀, rfl, rfl, huses, honLast⟩
  · exact settled_of_inStep (Beside.Within.skipLine (B := L.inStep.beside) hwithin)
  · have hwithin : (L.lastLine fun _ => True).Within (s₀.put us) (t₀.put us') :=
      ⟨us, us', s₀, t₀, .inr honLast.rested.lineEnded, rfl, rfl,
        huses.imp fun _ _ h => ⟨h, fun _ _ _ _ => trivial⟩, .inl honLast⟩
    exact settled_of_lastLine
      (Beside.Within.skipLine (B := (L.lastLine fun _ => True).beside) hwithin)

theorem between_skipLine (s t : Supply) (h : L.synced.Rested s t) :
    L.inStep.Between s.skipLine t.skipLine := .inl (settled_skipLine h)

/-! ### Turns -/

/-- A turn on a line that has its end in the file. -/
theorem turnRel_inStep {env : Environment} {tree : FileTree} {s t : ParseState}
    (hfiles : Files L.inStep.beside env tree) (h : L.inStep.beside.Along L.inStep.Within s t) :
    TurnRel (L.inStep.beside.Along L.Settled) L.inStep.beside.Told (turn env s) (turn { env with tree } t) := by
  have hrel := Synced.turnRel L.stated_of_eq hfiles L.skipsAlike_apart skipsAlike_eq between_skipLine h
    fun _ _ _ => trivial
  exact hrel.imp fun _ _ _ h => h.weaken settled_of_inStep

/-- A turn on the last line. -/
theorem turnRel_lastLine {env : Environment} {tree : FileTree} {s t : ParseState}
    (h : L.inStep.beside.Along (L.lastLine N).Within s t) (hplain : Plain s.macros N)
    (hapt : ∀ d s', peek env.limit s = .ok (.directive d) s' → d.goesOn = false) :
    TurnRel (L.inStep.beside.Along L.Settled) L.inStep.beside.Told (turn env s) (turn { env with tree } t) := by
  let B := (L.lastLine N).beside
  have hbetween (s t : Supply) (h : L.inStep.beside.Between s t) : B.Between s t :=
    .inl (settled_of_inStep h)
  have hcross : Crosses B (fun _ => False) env tree := by
    refine .of_files L.stated_of_eq (fun hd hapt => ?_) (fun hd hapt => ?_) (Pairing.skipsElse ?_)
    · rcases hd with rfl | rfl <;> cases hapt
    · rcases hd with rfl | rfl <;> cases hapt
    · intro s t hready _ hs ht
      rcases hready with hlast | hhalfway
      · rcases hlast.peek with ⟨hread, _⟩ | ⟨_, _, _, _, heat, _⟩
        · rw [hs] at hread
          cases hread
        · rw [hs, ht] at heat
          have halike := Synced.skipAlike L.skipsAlike_apart skipsAlike_eq between_skipLine
            heat.rested false
          exact .inr (Pairing.skipAlike_imp hbetween halike)
      · have hread := hhalfway.peek.1
        rw [hs] at hread
        cases hread
  exact (hcross.turnRel ⟨h, hplain⟩ hapt fun _ _ _ => id).imp fun _ _ _ h => h.weaken settled_of_lastLine

end LongerFile

end CartScript
