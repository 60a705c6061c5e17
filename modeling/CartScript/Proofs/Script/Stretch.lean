import CartScript.Proofs.Script.Synced
import CartScript.Proofs.Token.Lines

/-!
# A stretch of text before what differs

Two texts begin with the same tokens, and go on with others.  Within the stretch that they share they
are in step, and a block whose end lies in the stretch is skipped alike.
-/

namespace CartScript

open TextStream (Round Paced)

/-! ## Rounds at the same pace -/

namespace TextStream.Paced

theorem refl (as : List Round) : Paced as as := by
  induction as with
  | nil => trivial
  | cons a as ih =>
    refine ⟨rfl, fun name b c hb hc => ?_, ih⟩
    rw [hb] at hc
    rw [Option.some.inj hc]

variable {as bs : List Round}

theorem outcomes (h : Paced as bs) : as.map Round.outcome = bs.map Round.outcome := by
  fun_induction Paced as bs with
  | case1 => rfl
  | case2 a as b bs ih => rw [List.map_cons, List.map_cons, h.1, ih h.2.2]
  | case3 => exact h.elim

theorem length_eq (h : Paced as bs) : as.length = bs.length := by
  simpa using congrArg List.length h.outcomes

theorem nil_iff (h : Paced as bs) : as = [] ↔ bs = [] := by
  rw [← List.length_eq_zero_iff, ← List.length_eq_zero_iff, h.length_eq]

/-- Files at the same pace are in step. -/
theorem lockstep : Lockstep (fun _ _ => True) Paced Paced where
  nil h := h.nil_iff
  first h := ⟨h.1, trivial⟩
  inline h _ := h.2.2
  line h _ := h.2.2
  rest h := h

theorem definesAlike : DefinesAlike Paced := fun h _ _ _ => h.2.2.2.1 _ _ _ rfl rfl

theorem skipsAlike : SkipsAlike Paced := by
  intro as bs h stopAtElse depth
  fun_induction Paced as bs generalizing depth with
  | case1 => exact ⟨rfl, trivial⟩
  | case2 a as b bs ih =>
    rw [Frame.skipRounds, Frame.skipRounds, h.1]
    cases Frame.skipStep stopAtElse depth b.outcome with
    | inl found => exact ⟨rfl, h.2.2⟩
    | inr depth => exact ih h.2.2 depth
  | case3 => exact h.elim

end TextStream.Paced

/-! ## Stretches -/

/-- What the tokens of a stretch are within a line, and after one. -/
structure Stretch (P Q : List Token → Prop) : Prop where
  ne_nil : ∀ {tokens}, P tokens → tokens ≠ []
  inline : ∀ {token tokens}, P (token :: tokens) → token.Inline → P tokens
  line : ∀ {tokens}, P (.lineEnd :: tokens) → Q tokens
  rest : ∀ {tokens}, P tokens → Q tokens
  /-- No other files are named. -/
  plain : ∀ {token tokens}, P (token :: tokens) →
    token ≠ .directive .includeScript ∧ token ≠ .directive .includeBytes

/-- Rounds that begin with the same tokens, and go on with others. -/
def Shared (tail tail' : List Round) (P : List Token → Prop) (as bs : List Round) : Prop :=
  ∃ xs ys tokens, as = xs ++ tail ∧ bs = ys ++ tail' ∧ Paced xs ys ∧
    xs.map Round.outcome = tokens.map .ok ∧ P tokens

namespace Shared

variable {tail tail' : List Round} {P Q E : List Token → Prop} {as bs : List Round}

theorem mono (h : Shared tail tail' P as bs) (hPQ : ∀ tokens, P tokens → Q tokens) :
    Shared tail tail' Q as bs := by
  obtain ⟨xs, ys, tokens, hxs, hys, hpaced, htokens, hP⟩ := h
  exact ⟨xs, ys, tokens, hxs, hys, hpaced, htokens, hPQ _ hP⟩

/-- The first of some rounds that are in the stretch. -/
theorem eq_cons {xs as tail : List Round} {a : Round} {tokens : List Token}
    (hxs : a :: as = xs ++ tail) (htokens : xs.map Round.outcome = tokens.map .ok)
    (hne : tokens ≠ []) :
    ∃ xs' token tokens', xs = a :: xs' ∧ tokens = token :: tokens' ∧ a.outcome = .ok token ∧
      xs'.map Round.outcome = tokens'.map .ok ∧ as = xs' ++ tail := by
  obtain ⟨token, tokens, rfl⟩ := List.exists_cons_of_ne_nil hne
  cases xs with
  | nil => cases htokens
  | cons x xs =>
    obtain ⟨rfl, hrest⟩ := List.cons.inj hxs
    obtain ⟨htoken, hmore⟩ := List.cons.inj htokens
    exact ⟨xs, token, tokens, rfl, rfl, htoken, hmore, hrest⟩

/-- The first round of a stretch. -/
theorem first (h : Shared tail tail' P as bs) (hne : ∀ tokens, P tokens → tokens ≠ []) :
    ∃ a b as' bs' token, as = a :: as' ∧ bs = b :: bs' ∧ a.outcome = .ok token ∧ b.outcome = .ok token ∧
      Shared tail tail' (fun tokens => P (token :: tokens)) as' bs' := by
  obtain ⟨xs, ys, tokens, rfl, rfl, hpaced, htokens, hP⟩ := h
  obtain ⟨token, tokens, rfl⟩ := List.exists_cons_of_ne_nil (hne tokens hP)
  cases xs with
  | nil => cases htokens
  | cons a xs =>
    cases ys with
    | nil => exact hpaced.elim
    | cons b ys =>
      obtain ⟨ha, hmore⟩ := List.cons.inj htokens
      exact ⟨a, b, xs ++ tail, ys ++ tail', token, rfl, rfl, ha, hpaced.1 ▸ ha, xs, ys, tokens, rfl, rfl,
        hpaced.2.2, hmore, hP⟩

/-- A block ends in the stretch, or goes on beyond it. -/
theorem skip (h : Shared tail tail' Q as bs)
    (hsuffix : ∀ {tokens tokens'}, Q tokens → tokens' <:+ tokens → E tokens') (stopAtElse : Bool)
    (depth : Nat) :
    (∃ found as' bs', Frame.skipRounds stopAtElse depth as = (.ok found, as') ∧
      Frame.skipRounds stopAtElse depth bs = (.ok found, bs') ∧ Shared tail tail' E as' bs') ∨
    ∃ xs tokens fault, as = xs ++ tail ∧ xs.map Round.outcome = tokens.map .ok ∧ Q tokens ∧
      (Frame.skipRounds stopAtElse depth xs).1 = .error fault := by
  obtain ⟨xs, ys, tokens, rfl, rfl, hpaced, htokens, hQ⟩ := h
  obtain ⟨hfound, hrest⟩ := hpaced.skipsAlike stopAtElse depth
  cases hxs : Frame.skipRounds stopAtElse depth xs with
  | mk outcome xs' =>
    cases hys : Frame.skipRounds stopAtElse depth ys with
    | mk outcome' ys' =>
      rw [hxs, hys] at hfound hrest
      obtain rfl : outcome = outcome' := hfound
      cases outcome with
      | ok found =>
        have hpart := (Frame.skipRounds_suffix stopAtElse depth xs).trans (List.tail_suffix xs)
        rw [hxs] at hpart
        obtain ⟨before, rfl⟩ := hpart
        refine .inl ⟨found, _, _, Frame.skipRounds_append_of_ok hxs tail,
          Frame.skipRounds_append_of_ok hys tail', xs', ys', tokens.drop before.length, rfl, rfl, hrest,
          ?_, hsuffix hQ (List.drop_suffix _ _)⟩
        rw [List.map_drop, ← htokens, List.map_append, List.drop_left' (by simp)]
      | error fault => exact .inr ⟨xs, tokens, fault, rfl, htokens, hQ, by rw [hxs]⟩

end Shared

namespace Stretch

variable {P Q : List Token → Prop}

theorem lockstep (h : Stretch P Q) (tail tail' : List Round) :
    Lockstep (fun _ _ => True) (Shared tail tail' P) (Shared tail tail' Q) where
  nil hs := by
    obtain ⟨a, b, as, bs, token, rfl, rfl, _⟩ := hs.first fun _ => h.ne_nil
    simp
  first hs := by
    obtain ⟨a, b, as, bs, token, hcons, hcons', ha, hb, _⟩ := hs.first fun _ => h.ne_nil
    obtain ⟨rfl, rfl⟩ := List.cons.inj hcons
    obtain ⟨rfl, rfl⟩ := List.cons.inj hcons'
    exact ⟨ha.trans hb.symm, trivial⟩
  inline hs hinline := by
    obtain ⟨a, b, as, bs, token, hcons, hcons', ha, hb, hrest⟩ := hs.first fun _ => h.ne_nil
    obtain ⟨rfl, rfl⟩ := List.cons.inj hcons
    obtain ⟨rfl, rfl⟩ := List.cons.inj hcons'
    rw [ha, Reading.inline_ok] at hinline
    exact hrest.mono fun tokens hP => h.inline hP hinline
  line hs hline := by
    obtain ⟨a, b, as, bs, token, hcons, hcons', ha, hb, hrest⟩ := hs.first fun _ => h.ne_nil
    obtain ⟨rfl, rfl⟩ := List.cons.inj hcons
    obtain ⟨rfl, rfl⟩ := List.cons.inj hcons'
    obtain rfl : token = .lineEnd := Except.ok.inj (ha.symm.trans hline)
    exact hrest.mono fun tokens hP => h.line hP
  rest hs := hs.mono fun _ => h.rest

theorem definesAlike (h : Stretch P Q) (tail tail' : List Round) :
    DefinesAlike (Shared tail tail' P) := by
  intro d a a' d' b b' as bs name hs hd ha ha'
  -- The name and the parenthesis are in the stretch: no line ends with a directive or a name.
  obtain ⟨xs, ys, tokens, hxs, hys, hpaced, htokens, hP⟩ := hs
  obtain ⟨xs₁, _, _, rfl, rfl, htoken, htokens₁, hxs₁⟩ := Shared.eq_cons hxs htokens (h.ne_nil hP)
  obtain rfl := Except.ok.inj (hd.symm.trans htoken)
  have hP₁ := h.inline hP ⟨by simp, by simp⟩
  obtain ⟨xs₂, _, _, rfl, rfl, htoken, htokens₂, hxs₂⟩ := Shared.eq_cons hxs₁ htokens₁ (h.ne_nil hP₁)
  obtain rfl := Except.ok.inj (ha.symm.trans htoken)
  have hP₂ := h.inline hP₁ ⟨by simp, by simp⟩
  obtain ⟨xs₃, _, _, rfl, rfl, _, _, _⟩ := Shared.eq_cons hxs₂ htokens₂ (h.ne_nil hP₂)
  match ys, hys, hpaced with
  | _ :: _ :: _ :: _, hys, hpaced =>
    simp only [List.cons_append, List.cons.injEq] at hys
    obtain ⟨rfl, rfl, rfl, _⟩ := hys
    exact hpaced.2.2.2.1 name _ _ rfl rfl

end Stretch

/-! ## Blocks that end in the stretch -/

/-- The blocks of some lines end in them, but for those that are open before.  A directive for a block
    stands at the start of its line. -/
def Balanced : (start : Bool) → (depth : Nat) → List Token → Bool
  | _, depth, [] => depth = 0
  | _, depth, .lineEnd :: tokens => Balanced true depth tokens
  | start, depth, .directive .ifDefined :: tokens | start, depth, .directive .ifUndefined :: tokens =>
    start && Balanced false (depth + 1) tokens
  | start, depth, .directive .otherwise :: tokens => start && depth ≠ 0 && Balanced false depth tokens
  | start, depth, .directive .endIf :: tokens => start && depth ≠ 0 && Balanced false (depth - 1) tokens
  | _, depth, _ :: tokens => Balanced false depth tokens

namespace Balanced

variable {tokens : List Token} {depth : Nat} {token : Token} {start : Bool}

/-- In the middle of a line nothing begins or ends. -/
theorem inline (h : Balanced false depth (token :: tokens) = true) (htoken : token.Inline) :
    Balanced false depth tokens = true := by
  unfold Balanced at h
  split at h
  all_goals simp_all [Token.Inline]

theorem tail (h : Balanced start depth (token :: tokens) = true) :
    ∃ start depth, Balanced start depth tokens = true := by
  unfold Balanced at h
  split at h
  all_goals grind

theorem suffix {tokens' : List Token} (h : Balanced start depth tokens = true)
    (hsuffix : tokens' <:+ tokens) : ∃ start depth, Balanced start depth tokens' = true := by
  induction tokens generalizing start depth with
  | nil => exact ⟨start, depth, List.suffix_nil.1 hsuffix ▸ h⟩
  | cons token tokens ih =>
    rcases List.suffix_cons_iff.1 hsuffix with rfl | hsuffix
    · exact ⟨start, depth, h⟩
    · obtain ⟨start, depth, h⟩ := tail h
      exact ih h hsuffix

/-- A block that goes on is still open. -/
theorem step {stopAtElse : Bool} {inner inner' : Nat}
    (h : Balanced start depth (token :: tokens) = true) (hinner : inner < depth)
    (hstep : Frame.skipStep stopAtElse inner (.ok token) = .inr inner') :
    ∃ start depth, Balanced start depth tokens = true ∧ inner' < depth := by
  cases token with
  | directive d =>
    cases d with
    | ifDefined | ifUndefined =>
      obtain rfl : inner + 1 = inner' := Sum.inr.inj hstep
      exact ⟨false, depth + 1, (Bool.and_eq_true_iff.1 h).2, Nat.succ_lt_succ hinner⟩
    | otherwise =>
      obtain ⟨_, hstep⟩ := ite_eq_iff.1 hstep |>.resolve_left (by simp)
      obtain rfl : inner = inner' := Sum.inr.inj hstep
      exact ⟨false, depth, (Bool.and_eq_true_iff.1 h).2, hinner⟩
    | endIf =>
      obtain ⟨hpos, hstep⟩ := ite_eq_iff.1 hstep |>.resolve_left (by simp)
      obtain rfl : inner - 1 = inner' := Sum.inr.inj hstep
      exact ⟨false, depth - 1, (Bool.and_eq_true_iff.1 h).2, by omega⟩
    | _ =>
      obtain rfl : inner = inner' := Sum.inr.inj hstep
      exact ⟨false, depth, h, hinner⟩
  | lineEnd =>
    obtain rfl : inner = inner' := Sum.inr.inj hstep
    exact ⟨true, depth, h, hinner⟩
  | _ =>
    obtain rfl : inner = inner' := Sum.inr.inj hstep
    exact ⟨false, depth, h, hinner⟩

/-- A block that is open before ends in the stretch. -/
theorem found {start : Bool} {depth : Nat} {tokens : List Token} {xs : List Round}
    (h : Balanced start depth tokens = true) (hxs : xs.map Round.outcome = tokens.map .ok)
    (stopAtElse : Bool) {inner : Nat} (hinner : inner < depth) (fault : ParseFault) :
    (Frame.skipRounds stopAtElse inner xs).1 ≠ .error fault := by
  induction tokens generalizing start depth xs inner with
  | nil =>
    have : depth = 0 := by simpa [Balanced] using h
    omega
  | cons token tokens ih =>
    cases xs with
    | nil => cases hxs
    | cons x xs =>
      obtain ⟨htoken, hrest⟩ := List.cons.inj hxs
      rw [Frame.skipRounds, htoken]
      cases hstep : Frame.skipStep stopAtElse inner (.ok token) with
      | inl found => simp
      | inr inner =>
        obtain ⟨start, depth, hbalanced, hinner⟩ := step h hinner hstep
        exact ih hbalanced hrest hinner

end Balanced

/-! ## Lines -/

/-- Whole lines in which no other files are named. -/
structure PlainLines (tokens : List Token) : Prop where
  last : ∀ token, tokens.getLast? = some token → token = .lineEnd
  plain : ∀ token ∈ tokens, token ≠ .directive .includeScript ∧ token ≠ .directive .includeBytes

variable {tokens tokens' : List Token}

theorem PlainLines.suffix (h : PlainLines tokens) (hsuffix : tokens' <:+ tokens) :
    PlainLines tokens' := by
  obtain ⟨before, rfl⟩ := hsuffix
  refine ⟨fun token htoken => h.last token ?_, fun token htoken => h.plain token ?_⟩
  · rw [List.getLast?_append, htoken]
    rfl
  · exact List.mem_append_right before htoken

theorem plainLines_of_last (hlast : tokens ≠ [] → tokens.getLast? = some .lineEnd)
    (hplain : ∀ token ∈ tokens, token ≠ .directive .includeScript ∧ token ≠ .directive .includeBytes) :
    PlainLines tokens := by
  refine ⟨fun token htoken => ?_, hplain⟩
  have hne : tokens ≠ [] := by
    rintro rfl
    cases htoken
  exact Option.some.inj (htoken.symm.trans (hlast hne))

/-- A line goes on after a token in its middle. -/
theorem PlainLines.ne_nil {token : Token} (h : PlainLines (token :: tokens)) (htoken : token.Inline) :
    tokens ≠ [] := by
  rintro rfl
  exact htoken.1 (h.last token rfl)

/-- Lines with any blocks. -/
theorem stretch_lines : Stretch (fun tokens => tokens ≠ [] ∧ PlainLines tokens) PlainLines where
  ne_nil h := h.1
  inline h htoken := ⟨h.2.ne_nil htoken, h.2.suffix (List.suffix_cons _ _)⟩
  line h := h.2.suffix (List.suffix_cons _ _)
  rest h := h.2
  plain h := h.2.plain _ (.head _)

/-- Lines whose blocks end in them. -/
def BlockLines (tokens : List Token) : Prop :=
  PlainLines tokens ∧ ∃ start depth, Balanced start depth tokens = true

theorem BlockLines.suffix (h : BlockLines tokens) (hsuffix : tokens' <:+ tokens) :
    BlockLines tokens' := by
  obtain ⟨hplain, start, depth, hbalanced⟩ := h
  exact ⟨hplain.suffix hsuffix, Balanced.suffix hbalanced hsuffix⟩

theorem stretch_blocks : Stretch (fun tokens => tokens ≠ [] ∧ BlockLines tokens) BlockLines where
  ne_nil h := h.1
  inline h htoken := ⟨h.2.1.ne_nil htoken, h.2.suffix (List.suffix_cons _ _)⟩
  line h := h.2.suffix (List.suffix_cons _ _)
  rest h := h.2
  plain h := h.2.1.plain _ (.head _)

/-- The line of a directive for a block, with some blocks open after it. -/
theorem stretch_condition (depth : Nat) :
    Stretch (fun tokens => tokens ≠ [] ∧ PlainLines tokens ∧ Balanced false depth tokens = true)
      fun tokens => PlainLines tokens ∧ ∃ start, Balanced start depth tokens = true where
  ne_nil h := h.1
  inline h htoken := ⟨h.2.1.ne_nil htoken, h.2.1.suffix (List.suffix_cons _ _),
    Balanced.inline h.2.2 htoken⟩
  line h := ⟨h.2.1.suffix (List.suffix_cons _ _), true, h.2.2⟩
  rest h := ⟨h.2.1, false, h.2.2⟩
  plain h := h.2.1.plain _ (.head _)

end CartScript
