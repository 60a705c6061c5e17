import CartScript.Proofs.Script.Lockstep

/-!
# Scripts whose files are all in step

Where all files of two scripts are in step, also what reaches over the end of a line is: the files
that directives name are found at the same places, and blocks are skipped up to the same directive.
-/

namespace CartScript

open TextStream (Round)
open Parsing

/-- Files are found by the files that are being read. -/
theorem Parsing.findFile?_congr {env : Environment} {tree : FileTree} {s t : Supply}
    (h : s.openFiles = t.openFiles) (hfile : ∀ path, env.tree.isFile path = tree.isFile path)
    (name : Path) : findFile? env s name = findFile? { env with tree } t name := by
  have hnearest : s.frames.findSome? Frame.route? = t.frames.findSome? Frame.route? := by
    rw [← List.head?_filterMap, ← List.head?_filterMap]
    exact congrArg List.head? h
  unfold findFile?
  rw [hnearest, show env.tree.isFile = tree.isFile from funext hfile]

/-- Blocks are skipped alike in rounds that are related. -/
def SkipsAlike (R : List Round → List Round → Prop) : Prop :=
  ∀ {as bs}, R as bs → ∀ stopAtElse depth,
    (Frame.skipRounds stopAtElse depth as).1 = (Frame.skipRounds stopAtElse depth bs).1 ∧
      R (Frame.skipRounds stopAtElse depth as).2 (Frame.skipRounds stopAtElse depth bs).2

theorem FilePair.skipBlock {R : List Round → List Round → Prop} (hR : SkipsAlike R) {f g : Frame}
    (h : FilePair R f g) (stopAtElse : Bool) :
    (f.skipBlock stopAtElse 0).1 = (g.skipBlock stopAtElse 0).1 ∧
      FilePair R (f.skipBlock stopAtElse 0).2 (g.skipBlock stopAtElse 0).2 := by
  obtain ⟨hf, hf', hakin⟩ := Frame.skipBlock_ahead stopAtElse 0 f
  obtain ⟨hg, hg', hakin'⟩ := Frame.skipBlock_ahead stopAtElse 0 g
  obtain ⟨hfound, hahead⟩ := hR h.ahead stopAtElse 0
  refine ⟨by rw [hf, hg, hfound], hakin.isFile.trans h.left, hakin'.isFile.trans h.right, ?_⟩
  rw [hf', hg']
  exact hahead

namespace Synced

variable {S : Synced} {s t : Supply}

theorem Rested.openFiles (h : S.Rested s t) : s.openFiles = t.openFiles := by
  obtain ⟨root, stack, lineEnded⟩ := s
  obtain ⟨root', stack', lineEnded'⟩ := t
  have hstack : List.Forall₂ S.Deep stack stack' := h.stack
  have hroute : root.route? = root'.route? := h.route
  rw [Supply.openFiles_mk, Supply.openFiles_mk, List.filterMap_cons, List.filterMap_cons, hroute]
  congr 1
  clear h
  induction hstack with
  | nil => rfl
  | cons hfg _ ih => rw [List.filterMap_cons, List.filterMap_cons, hfg.route, ih]

variable {Settled : Supply → Supply → Prop} {hsettled : ∀ s t, S.Rested s t → Settled s t}

theorem Rested.put (h : S.Rested s t) {us us' : List Frame}
    (huses : List.Forall₂ (UseNear S.near) us us') : S.Rested (s.put us) (t.put us') :=
  ⟨h.lineEnded, List.rel_append (huses.imp fun _ _ => .inl) h.stack, h.root, h.route⟩

/-- After a line all sources are in step, also uses of macros. -/
theorem rested_of_after (h : (S.pairing Settled hsettled).After s t) : S.Rested s t := by
  rcases h with hrested | ⟨us, us', s₀, t₀, hs, ht, rfl, rfl, huses, hready⟩
  · exact hrested
  · refine Rested.put ?_ huses
    have hrested := hready.eatLine (by rw [Supply.peek_of_lineEnded hs])
    rwa [Supply.peek_of_lineEnded hs, Supply.peek_of_lineEnded ht] at hrested

/-- Within a line all sources are in step. -/
theorem rested_of_within (h : (S.pairing Settled hsettled).Within s t) : S.Rested s t := by
  obtain ⟨us, us', s₀, t₀, _, rfl, rfl, huses, hready⟩ := h
  exact hready.toRested.put huses

/-- Uses of macros lie on top of a file, or of the script itself. -/
theorem Rested.split (h : S.Rested s t) :
    ∃ (us us' : List Frame) (s₀ t₀ : Supply), s = s₀.put us ∧ t = t₀.put us' ∧
      List.Forall₂ (UseNear S.near) us us' ∧ S.Rested s₀ t₀ ∧
      (s₀.stack = [] ∨ FilePair (S.D s₀.top.route?) s₀.top t₀.top) := by
  obtain ⟨root, stack, lineEnded⟩ := s
  obtain ⟨root', stack', lineEnded'⟩ := t
  have hstack : List.Forall₂ S.Deep stack stack' := h.stack
  induction hstack with
  | nil => exact ⟨[], [], _, _, rfl, rfl, .nil, h, .inl rfl⟩
  | @cons f g fs gs hfg hrest ih =>
    rcases hfg with huse | ⟨hfile, hroute⟩
    · obtain ⟨us, us', s₀, t₀, hs, ht, huses, hrested, htop⟩ :=
        ih ⟨h.lineEnded, hrest, h.root, h.route⟩
      exact ⟨f :: us, g :: us', s₀, t₀, congrArg (Supply.push · f) hs, congrArg (Supply.push · g) ht,
        .cons huse huses, hrested, htop⟩
    · exact ⟨[], [], ⟨root, f :: fs, lineEnded⟩, ⟨root', g :: gs, lineEnded'⟩, rfl, rfl, .nil, h,
        .inr hfile⟩

/-- Where the topmost file may be read, the script is within a line. -/
theorem Rested.within (h : S.Rested s t)
    (htop : ∀ s₀ t₀, S.Rested s₀ t₀ → FilePair (S.D s₀.top.route?) s₀.top t₀.top →
      s₀.lineEnded = false → FilePair (S.T s₀.top.route?) s₀.top t₀.top) :
    (S.pairing Settled hsettled).Within s t := by
  obtain ⟨us, us', s₀, t₀, rfl, rfl, huses, hrested, hfile⟩ := h.split
  refine ⟨us, us', s₀, t₀, .inr hrested.lineEnded, rfl, rfl, huses, hrested, fun hline => ?_⟩
  rcases hfile with hstack | hfile
  · have hstack' : t₀.stack = [] := List.forall₂_nil_left_iff.1 (hstack ▸ hrested.stack)
    have hroot := hrested.root
    rw [Supply.top, hstack, Supply.top, hstack']
    exact ⟨hroot.left, hroot.right, S.top hroot.ahead⟩
  · exact htop s₀ t₀ hrested hfile hline

/-! ## Files that are named -/

theorem files {env : Environment} {tree : FileTree}
    (hskip : ∀ s t, S.Rested s t → (S.pairing Settled hsettled).Between s.skipLine t.skipLine)
    (hresolve : ∀ path, env.tree.resolve path = tree.resolve path)
    (hfile : ∀ path, env.tree.isFile path = tree.isFile path)
    (hunread : ∀ path fault, env.tree.read path = .error fault ↔ tree.read path = .error fault)
    (hopen : ∀ path route content content', env.tree.resolve path = .ok route →
      env.tree.read path = .ok content → tree.read path = .ok content' →
      S.D (some route) (TextStream.ofBytes path content.toList).ahead
        (TextStream.ofBytes path content'.toList).ahead)
    (hbytes : ∀ path content content' p q, env.tree.read path = .ok content →
      tree.read path = .ok content' → S.near p q → S.same ⟨p, .bytes content⟩ ⟨q, .bytes content'⟩) :
    Files (S.pairing Settled hsettled).beside env tree where
  find h name := findFile?_congr (rested_of_after h).openFiles hfile name
  skipLine h := .inr (hskip _ _ (rested_of_after h))
  resolve := hresolve
  unread := hunread
  opened h route := by
    rw [Bool.eq_iff_iff, Supply.any_route?_iff, Supply.any_route?_iff, (rested_of_after h).openFiles]
  push h hroute _ hread hread' := by
    have hrested := rested_of_after h
    refine .inl (hsettled _ _ ⟨hrested.lineEnded, .cons (.inr ⟨⟨rfl, rfl, ?_⟩, rfl⟩) hrested.stack,
      hrested.root, hrested.route⟩)
    rw [Frame.ahead_file, Frame.ahead_file]
    exact hopen _ _ _ _ hroute hread hread'
  bytes hread hread' hpq := hbytes _ _ _ _ _ hread hread' hpq

/-! ## Blocks that are skipped -/

theorem skipAlike (hD : ∀ route, SkipsAlike (S.D route)) (hW : SkipsAlike S.W)
    (hskip : ∀ s t, S.Rested s t → (S.pairing Settled hsettled).Between s.skipLine t.skipLine)
    (h : S.Rested s t) (stopAtElse : Bool) :
    SkipAlike (S.pairing Settled hsettled).beside (s.skipBlock stopAtElse)
      (t.skipBlock stopAtElse) := by
  have hnext : (s.skipBlock stopAtElse).1 = (t.skipBlock stopAtElse).1 ∧
      S.Rested (s.skipBlock stopAtElse).2 (t.skipBlock stopAtElse).2 := by
    obtain ⟨root, stack, lineEnded⟩ := s
    obtain ⟨root', stack', lineEnded'⟩ := t
    have hstack : List.Forall₂ S.Deep stack stack' := h.stack
    cases hstack with
    | nil =>
      obtain ⟨hfound, hroot⟩ := h.root.skipBlock hW stopAtElse
      refine ⟨hfound, h.lineEnded, .nil, hroot, ?_⟩
      exact (Frame.skipBlock_ahead stopAtElse 0 root).2.2.route?.trans
        (h.route.trans (Frame.skipBlock_ahead stopAtElse 0 root').2.2.route?.symm)
    | @cons f g fs gs hfg hrest =>
      rcases hfg with huse | ⟨hfile, hroute⟩
      · obtain ⟨hfound, hnext⟩ := (Uses.any S.near).skipBlock huse stopAtElse 0
        exact ⟨hfound, h.lineEnded, .cons (.inl hnext) hrest, h.root, h.route⟩
      · obtain ⟨hfound, hnext⟩ := hfile.skipBlock (hD _) stopAtElse
        have hakin := (Frame.skipBlock_ahead stopAtElse 0 f).2.2
        refine ⟨hfound, h.lineEnded, .cons (.inr ⟨hakin.route? ▸ hnext, ?_⟩) hrest, h.root, h.route⟩
        exact hakin.route?.trans
          (hroute.trans (Frame.skipBlock_ahead stopAtElse 0 g).2.2.route?.symm)
  obtain ⟨hfound, hrested⟩ := hnext
  cases hs : s.skipBlock stopAtElse with
  | mk outcome after =>
    cases ht : t.skipBlock stopAtElse with
    | mk outcome' after' =>
      rw [hs, ht] at hfound hrested
      obtain rfl : outcome = outcome' := hfound
      cases outcome with
      | ok found => exact .ok rfl (.inl (hsettled _ _ hrested))
      | error fault => exact .error (Pairing.resumes (hskip _ _ hrested))

/-! ## Statements -/

/-- A turn is taken alike by two scripts whose files are in step. -/
theorem turnRel {env : Environment} {tree : FileTree} {s t : ParseState}
    (hstated : ∀ {p q}, S.near p q → S.Stated env p q)
    (hfiles : Files (S.pairing Settled hsettled).beside env tree) (hD : ∀ route, SkipsAlike (S.D route))
    (hW : SkipsAlike S.W)
    (hskip : ∀ s t, S.Rested s t → (S.pairing Settled hsettled).Between s.skipLine t.skipLine)
    (h : (S.pairing Settled hsettled).beside.Along (S.pairing Settled hsettled).Within s t)
    (hapt : ∀ d s', peek env.limit s = .ok (.directive d) s' → S.Apt d s'.supply) :
    TurnRel ((S.pairing Settled hsettled).beside.Along (S.pairing Settled hsettled).Between)
      S.account.Told (turn env s) (turn { env with tree } t) := by
  refine Crosses.turnRel (.of_files hstated (fun _ _ => hfiles) (fun _ _ s t h => .inr ?_)
    (Pairing.skipsElse ?_)) ⟨h, fun _ _ _ => trivial⟩ hapt fun _ _ _ => id
  · exact skipAlike hD hW hskip (rested_of_after h) true
  · intro s t hready _ hs ht
    have heat := hready.eat (by rw [hs]; exact ⟨by simp, by simp⟩)
    rw [hs, ht] at heat
    exact .inr (skipAlike hD hW hskip heat.toRested false)

end Synced

end CartScript
