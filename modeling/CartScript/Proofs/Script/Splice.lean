import CartScript.Proofs.Script.Cycles
import CartScript.Proofs.Script.Stretch

/-!
# Included files in place

A line that includes a file does what the text of the file would do in its place.  Up to the line both
texts are the same, then the file lies on top of the one script while the other one goes on with the
same lines, and after it both have the same text ahead.  Positions differ, so what goes by them is left
out: a `#define` that comes out of a macro, which may take a parenthesis of another file for its own.
-/

namespace CartScript

open TextStream (Round Paced)
open Parsing

/-- Skipping a block goes by the topmost source. -/
theorem Supply.skipBlock_withTop (s : Supply) (f : Frame) (stopAtElse : Bool) :
    (s.withTop f).skipBlock stopAtElse =
      ((f.skipBlock stopAtElse 0).1, s.withTop (f.skipBlock stopAtElse 0).2) := by
  obtain ⟨root, stack, lineEnded⟩ := s
  cases stack with
  | nil | cons g stack => rfl

/-! ## The script itself is read onwards -/

theorem Frame.length_ahead_peek_le (f : Frame) : f.peek.2.ahead.length ≤ f.ahead.length := by
  cases hf : f.peek.1 with
  | ok token => exact Nat.le_of_eq (congrArg List.length (ahead_peek hf))
  | error fault =>
    rw [ahead_peek_error hf]
    exact Nat.le_succ _

/-- Only the script itself gets shorter, and only where the next token comes from it. -/
theorem Supply.kept_root (size : Nat) : Supply.Kept fun s => s.root.ahead.length ≤ size where
  peek := by
    intro s h
    rcases s.peek_cases with ⟨_, hroot⟩ | htop
    · have hpeek : s.peek = (s.root.peek.1, ⟨s.root.peek.2, [], false⟩) := hroot id
      rw [hpeek]
      exact Nat.le_trans s.root.length_ahead_peek_le h
    · rw [htop.root]
      exact h
  eat := by
    intro s h hne
    rcases s.peek_cases with ⟨_, hroot⟩ | htop
    · have hpeek : s.peek = (s.root.peek.1, ⟨s.root.peek.2, [], false⟩) := hroot id
      rw [hpeek] at hne ⊢
      show s.root.peek.2.eat.ahead.length ≤ size
      rw [Frame.ahead_of_ne hne, List.length_cons] at h
      exact Nat.le_of_succ_le h
    · rw [htop.root_eat]
      exact h
  push h _ := h
  skip := by
    intro s h stopAtElse
    obtain ⟨root, stack, lineEnded⟩ := s
    cases stack with
    | nil =>
      show (root.skipBlock stopAtElse 0).2.ahead.length ≤ size
      rw [(Frame.skipBlock_ahead stopAtElse 0 root).2.1]
      exact Nat.le_trans ((Frame.skipRounds_suffix _ _ _).trans (List.tail_suffix _)).length_le h
    | cons f stack => exact h

/-- What is left of the script itself gets less from turn to turn. -/
theorem Parsing.Reaches.length_root_le {env : Environment} {script : Script}
    {defines : List (String × Int64)} {n m : Nat} {s t : ParseState}
    (hs : Reaches env n (script.start defines) s) (h : Reaches env m s t) :
    t.supply.root.ahead.length ≤ s.supply.root.ahead.length := by
  have hopen (size : Nat) : Includes (fun s => s.root.ahead.length ≤ size) env :=
    fun _ _ _ _ h _ _ _ => h
  let size := (script.start defines).supply.root.ahead.length
  have hstart := kept_of_reaches (Supply.kept_root size) (hopen size) (Nat.le_refl size) hs
  let B := Beside.diagonal (Supply.kept_root s.supply.root.ahead.length)
  have halong : B.Along B.Between s s :=
    ⟨⟨rfl, Nat.le_refl _⟩, hstart.macros, rfl, hstart.statements, hstart.diagnostics⟩
  exact (kept_along _ (hopen _) halong h).supply.2

/-! ## Scripts whose topmost files share a stretch -/

/-- Statements with the same values, wherever they stand. -/
def byValue : Likeness where
  near _ _ := True
  same a b := a.value = b.value

/-- A directive that comes next stands in a file. -/
abbrev Parsing.Written (env : Environment) (s : ParseState) : Prop :=
  ∀ d s', peek env.limit s = .ok (.directive d) s' → s'.supply.top.isFile = true

/-- Two scripts whose topmost files share a stretch. -/
structure Fork where
  /-- The tokens of the stretch within a line, after one, and between statements. -/
  P : List Token → Prop
  Q : List Token → Prop
  E : List Token → Prop
  stretch : Stretch P Q
  settled : ∀ {tokens}, Q tokens → E tokens
  suffix : ∀ {tokens tokens'}, Q tokens → tokens' <:+ tokens → E tokens'
  /-- What lies below, and any file on top of it. -/
  left : Supply
  right : Supply
  reading : left.lineEnded = false ∧ right.lineEnded = false
  isUsing : ∀ name, left.frames.tail.any (Frame.isUseOf name) =
    right.frames.tail.any (Frame.isUseOf name)
  /-- What follows the stretch. -/
  tail : List Round
  tail' : List Round

namespace Fork

/-- In the stretch the files are in step, wherever they stand. -/
def firm (F : Fork) : Firm where
  toLikeness := byValue
  T := Shared F.tail F.tail' F.P
  D := Shared F.tail F.tail' F.Q
  E := Shared F.tail F.tail' F.E
  Apt _ s := s.top.isFile = true
  left := F.left
  right := F.right
  reading := F.reading
  lockstep := F.stretch.lockstep F.tail F.tail'
  settled h := h.mono fun _ => F.settled
  bottom := by
    refine .inl fun as bs h hnil => ?_
    obtain ⟨a, b, as', bs', token, hcons, _⟩ := h.first fun _ => F.stretch.ne_nil
    rw [hnil] at hcons
    cases hcons
  isUsing := F.isUsing
  follows := .inr ⟨fun _ h => h, F.stretch.definesAlike F.tail F.tail'⟩

abbrev pairing (F : Fork) : Pairing := F.firm.pairing

/-- Readers in the stretch, within a line and between statements. -/
abbrev Inside (F : Fork) : ParseState → ParseState → Prop := F.pairing.beside.Along F.pairing.Within

abbrev Along (F : Fork) : ParseState → ParseState → Prop := F.pairing.beside.Along F.pairing.Between

variable {F : Fork} {s t : Supply}

/-- The stretch after a token that was looked at. -/
theorem on_eat {token : Token} (h : F.pairing.Within s t) (hfile : s.top.isFile = true)
    (hs : s.peek = (.ok token, s)) (ht : t.peek = (.ok token, t)) (htoken : token.Inline) :
    F.firm.On (Shared F.tail F.tail' fun tokens => F.P (token :: tokens)) s.eat t.eat := by
  rcases h.faced htoken hs ht with
    ⟨us, us', u, v, s₀, t₀, _, _, _, huv, _, _, rfl, rfl, _⟩ | ⟨hready, _, _, _⟩
  · rw [Supply.top_put_cons, (Uses.ahead _ huv).isFile] at hfile
    cases hfile
  · obtain ⟨f, g, rfl, rfl, hfg, hf, hg⟩ := hready
    obtain ⟨hpeek, hpeek'⟩ := Firm.On.peek_eq hfg
    obtain ⟨hread, hsame⟩ := Prod.mk.inj (hs.symm.trans hpeek)
    obtain ⟨_, hsame'⟩ := Prod.mk.inj (ht.symm.trans hpeek')
    have htop : f.peek.2 = f := by simpa using (congrArg Supply.top hsame).symm
    have htop' : g.peek.2 = g := by simpa using (congrArg Supply.top hsame').symm
    obtain ⟨a, b, as, bs, token', ha, hb, houtcome, _, hrest⟩ :=
      Shared.first hfg.ahead fun _ => F.stretch.ne_nil
    obtain ⟨hfirst, _, hnext, _⟩ := Frame.peek_of_ahead ha
    obtain ⟨_, _, hnext', _⟩ := Frame.peek_of_ahead hb
    obtain rfl : token = token' := Except.ok.inj (hread.trans (hfirst.trans houtcome))
    rw [htop] at hnext
    rw [htop'] at hnext'
    refine ⟨f.eat, g.eat, Supply.eat_withTop F.reading.1 f, Supply.eat_withTop F.reading.2 g,
      ⟨by simpa using hfg.left, by simpa using hfg.right, ?_⟩, by simpa using hf, by simpa using hg⟩
    rw [hnext, hnext']
    exact hrest

/-- Between statements the stretch goes on, or has come to its end. -/
theorem between_cases (h : F.pairing.Between s t)
    (hE : ∀ token tokens, F.E (token :: tokens) → F.P (token :: tokens)) :
    F.pairing.Within s t ∨ ∃ f g, s = F.left.withTop f ∧ t = F.right.withTop g ∧ f.isFile = true ∧
      g.isFile = true ∧ f.ahead = F.tail ∧ g.ahead = F.tail' ∧ f.route? = F.left.top.route? ∧
      g.route? = F.right.top.route? := by
  rcases Firm.between_cases h with ⟨f, g, hs, ht, hfg, hf, hg⟩ | hwithin
  · obtain ⟨xs, ys, tokens, hxs, hys, hpaced, htokens, htoken⟩ := hfg.ahead
    cases tokens with
    | nil =>
      obtain rfl := List.map_eq_nil_iff.1 htokens
      obtain rfl := hpaced.nil_iff.1 rfl
      exact .inr ⟨f, g, hs, ht, hfg.left, hfg.right, hxs, hys, hf, hg⟩
    | cons token tokens =>
      exact .inl (.of_ready ⟨f, g, hs, ht,
        ⟨hfg.left, hfg.right, xs, ys, _, hxs, hys, hpaced, htokens, hE _ _ htoken⟩, hf, hg⟩)
  · exact .inl hwithin

/-- A block that ends in the stretch is skipped alike. -/
theorem skip_on {R : List Token → Prop} (h : F.firm.On (Shared F.tail F.tail' R) s t)
    (hsuffix : ∀ {tokens tokens'}, R tokens → tokens' <:+ tokens → F.E tokens') (stopAtElse : Bool) :
    SkipAlike F.pairing.beside (s.skipBlock stopAtElse) (t.skipBlock stopAtElse) ∨
      ∃ f xs tokens fault, s = F.left.withTop f ∧ f.ahead = xs ++ F.tail ∧
        xs.map Round.outcome = tokens.map .ok ∧ R tokens ∧
        (Frame.skipRounds stopAtElse 0 xs).1 = .error fault := by
  obtain ⟨f, g, rfl, rfl, hfg, hf, hg⟩ := h
  rcases hfg.ahead.skip hsuffix stopAtElse 0 with
    ⟨found, as, bs, hskip, hskip', hrest⟩ | ⟨xs, tokens, fault, hxs, htokens, hR, hfault⟩
  · left
    obtain ⟨hfound, hahead, hakin⟩ := Frame.skipBlock_ahead stopAtElse 0 f
    obtain ⟨hfound', hahead', hakin'⟩ := Frame.skipBlock_ahead stopAtElse 0 g
    rw [hskip] at hfound hahead
    rw [hskip'] at hfound' hahead'
    rw [Supply.skipBlock_withTop, Supply.skipBlock_withTop, hfound, hfound']
    refine .ok rfl (.inl ⟨_, _, rfl, rfl, ⟨hakin.isFile.trans hfg.left,
      hakin'.isFile.trans hfg.right, ?_⟩, hakin.route?.trans hf, hakin'.route?.trans hg⟩)
    rw [hahead, hahead']
    exact hrest
  · exact .inr ⟨f, xs, tokens, fault, rfl, hxs, htokens, hR, hfault⟩

/-- A turn in the stretch. -/
theorem turnRel (Lost : Supply → Prop) {env : Environment} {s t : ParseState}
    (hif : ∀ d wanted, d = .ifDefined ∨ d = .ifUndefined →
      AgreeOr F.pairing.beside Lost (F.pairing.beside.Meets d) (conditional env wanted)
        (conditional env wanted) fun _ => F.Along)
    (helse : Skips F.pairing.beside Lost (AfterElse F.pairing.beside) false) (h : F.Inside s t)
    (hapt : Written env s) :
    Leaves Lost (statement env s) ∨
      TurnRel F.Along byValue.account.Told (turn env s) (turn env t) := by
  let B := F.pairing.beside
  have hplain {d : Directive} (hd : d = .includeScript ∨ d = .includeBytes) {s t : ParseState}
      (h : B.Meets d s t) : False := by
    obtain ⟨h, hfile⟩ := h
    obtain ⟨f, g, _, _, hfg, _, _⟩ := on_eat h.supply hfile h.left h.right ⟨by simp, by simp⟩
    obtain ⟨xs, ys, tokens, _, _, _, _, hP⟩ := hfg.ahead
    rcases hd with rfl | rfl
    · exact (F.stretch.plain hP).1 rfl
    · exact (F.stretch.plain hP).2 rfl
  have hcross : Crosses B Lost env env.tree :=
    { stated := fun _ _ _ => rfl
      script := fun _ _ h => (hplain (.inl rfl) h).elim
      bytes := fun _ _ _ _ _ h => (hplain (.inr rfl) h).elim
      condition := hif
      otherwise := helse }
  exact (alikeOr_statement hcross ⟨h, fun _ _ _ => trivial⟩ hapt).imp_right fun halike =>
    turnRel_of_alike halike fun _ _ _ => id

end Fork

/-! ## A script that includes a file -/

/-- A directive that comes next stands in a file, and does not come out of a macro. -/
def Parsing.directiveWritten (env : Environment) (s : ParseState) : Bool :=
  match peek env.limit s with
  | .ok (.directive _) next => next.supply.top.isFile
  | _ => true

/-- A text with a line that includes a file. -/
structure Splice where
  env : Environment
  defines : List (String × Int64)
  name : String
  route : Option Route
  before : List UInt8
  line : List UInt8
  after : List UInt8
  /-- The text of the file. -/
  file : List UInt8
  /-- The file as the line names it, and where it is. -/
  included : String
  path : Path
  place : Route

namespace Splice

/-- The text with the line. -/
def including (S : Splice) : Script :=
  { name := S.name, content := S.before ++ (S.line ++ S.after), route := S.route }

/-- The text with the file in place of the line. -/
def spliced (S : Splice) : Script :=
  { name := S.name, content := S.before ++ (S.file ++ S.after), route := S.route }

/-- The start of the text with the line. -/
abbrev start (S : Splice) : ParseState := S.including.start S.defines

/-- The line is reached as the start of a statement. -/
def Coming (S : Splice) (s : ParseState) : Prop :=
  ∃ n u text, Reaches S.env n s u ∧ u.supply = ⟨.file S.route text, [], false⟩ ∧ text.held = none ∧
    text.rest = S.line ++ S.after

/-- The line is reached and includes the file, and the file could stand in its place. -/
structure Fits (S : Splice) : Prop where
  before : ∃ tokens, TextStream.lineTokens? S.before = some tokens ∧
    ∀ token ∈ tokens, token ≠ .directive .includeScript ∧ token ≠ .directive .includeBytes
  file : ∃ tokens, TextStream.lineTokens? S.file = some tokens ∧
    (∀ token ∈ tokens, token ≠ .directive .includeScript ∧ token ≠ .directive .includeBytes) ∧
    Balanced true 0 tokens = true
  line : TextStream.lineTokens? S.line =
    some [.directive .includeScript, .text S.included, .lineEnd]
  found : findFile? S.env S.start.supply S.included = some S.path
  resolved : S.env.tree.resolve S.path = .ok S.place
  closed : S.route ≠ some S.place
  content : S.env.tree.read S.path = .ok S.file.toArray
  reached : S.Coming S.start
  written : ∀ n s, Reaches S.env n S.start s → directiveWritten S.env s = true
  ends : (S.including.parse S.env S.defines).outcome ≠ .error .endless

variable {S : Splice}

/-! ### The rounds of the texts -/

/-- Some bytes after the text before the line. -/
def behind (S : Splice) (bytes : List UInt8) : TextStream :=
  { TextStream.ofBytes S.name S.before with
    rest := bytes
    place := (TextStream.ofBytes S.name S.before).place.steps S.before }

theorem ahead_before (h : S.Fits) (bytes : List UInt8) :
    (TextStream.ofBytes S.name (S.before ++ bytes)).ahead =
        (TextStream.ofBytes S.name S.before).ahead ++ (S.behind bytes).ahead ∧
      ∃ tokens, (TextStream.ofBytes S.name S.before).ahead.map Round.outcome = tokens.map .ok ∧
        PlainLines tokens := by
  obtain ⟨tokens, htokens, hplain⟩ := h.before
  have htells := TextStream.tells_of_tokensWithin? (s := .ofBytes S.name S.before) rfl htokens
  obtain ⟨hahead, houtcomes, hlast⟩ := htells.ahead bytes
  exact ⟨hahead, tokens, houtcomes, plainLines_of_last hlast hplain⟩

theorem ahead_line (h : S.Fits) :
    ∃ r₁ r₂ r₃, ∃ text : TextStream,
      (S.behind (S.line ++ S.after)).ahead = r₁ :: r₂ :: r₃ :: text.ahead ∧
      r₁.outcome = .ok (.directive .includeScript) ∧ r₂.outcome = .ok (.text S.included) ∧
      r₃.outcome = .ok .lineEnd ∧ text.held = none ∧ text.rest = S.after := by
  have htells := TextStream.tells_of_tokensWithin? (s := S.behind S.line) rfl h.line
  obtain ⟨hahead, houtcomes, _⟩ := htells.ahead S.after
  simp only [List.map_cons, List.map_nil, List.map_eq_cons_iff, List.map_eq_nil_iff] at houtcomes
  obtain ⟨r₁, _, hrounds, h₁, r₂, _, rfl, h₂, r₃, _, rfl, h₃, rfl⟩ := houtcomes
  rw [hrounds] at hahead
  exact ⟨r₁, r₂, r₃, _, hahead, h₁, h₂, h₃, rfl, rfl⟩

theorem ahead_file (h : S.Fits) :
    ∃ ys tokens, ∃ text : TextStream, (S.behind (S.file ++ S.after)).ahead = ys ++ text.ahead ∧
      Paced (TextStream.ofBytes S.path S.file).ahead ys ∧
      (TextStream.ofBytes S.path S.file).ahead.map Round.outcome = tokens.map .ok ∧
      BlockLines tokens ∧ text.held = none ∧ text.rest = S.after := by
  obtain ⟨tokens, htokens, hplain, hbalanced⟩ := h.file
  have htells := TextStream.tells_of_tokensWithin? (s := S.behind S.file) rfl htokens
  obtain ⟨hahead, houtcomes, hlast⟩ := htells.ahead S.after
  have hpaced : Paced (TextStream.ofBytes S.path S.file).ahead (S.behind S.file).ahead :=
    (TextStream.paced_of_rest (s := .ofBytes S.path S.file) (t := S.behind S.file) rfl rfl rfl).1
  refine ⟨_, tokens, _, hahead, hpaced, hpaced.outcomes.trans houtcomes, ?_, rfl, rfl⟩
  exact ⟨plainLines_of_last hlast hplain, true, 0, hbalanced⟩

/-! ### Before the line -/

/-- The text before the line. -/
def forkBefore (S : Splice) : Fork where
  P tokens := tokens ≠ [] ∧ PlainLines tokens
  Q := PlainLines
  E := PlainLines
  stretch := stretch_lines
  settled h := h
  suffix h := h.suffix
  left := S.start.supply
  right := (S.spliced.start S.defines).supply
  reading := ⟨rfl, rfl⟩
  isUsing _ := rfl
  tail := (S.behind (S.line ++ S.after)).ahead
  tail' := (S.behind (S.file ++ S.after)).ahead

/-- A block reached over the line. -/
def Lost (S : Splice) (s : Supply) : Prop :=
  s.root.ahead.length < (S.behind (S.line ++ S.after)).ahead.length

/-- A block that starts before the line is skipped alike, or it reaches over the line. -/
theorem skip_before (h : S.Fits) {R : List Token → Prop} {s t : Supply}
    (hst : S.forkBefore.firm.On (Shared S.forkBefore.tail S.forkBefore.tail' R) s t)
    (hsuffix : ∀ {tokens tokens'}, R tokens → tokens' <:+ tokens → PlainLines tokens')
    (stopAtElse : Bool) :
    SkipLost S.Lost (s.skipBlock stopAtElse) ∨
      SkipAlike S.forkBefore.pairing.beside (s.skipBlock stopAtElse) (t.skipBlock stopAtElse) := by
  rcases Fork.skip_on hst hsuffix stopAtElse with
    halike | ⟨f, xs, tokens, fault, rfl, hahead, _, _, hfault⟩
  · exact .inr halike
  · left
    obtain ⟨depth, hskip⟩ := Frame.skipRounds_append_of_error hfault S.forkBefore.tail
    obtain ⟨houtcome, hrest, _⟩ := Frame.skipBlock_ahead stopAtElse 0 f
    rw [hahead, hskip] at houtcome hrest
    have htail : S.forkBefore.tail ≠ [] := by
      obtain ⟨r₁, r₂, r₃, text, hline, _⟩ := ahead_line h
      exact fun hnil => by
        rw [show S.forkBefore.tail = _ from hline] at hnil
        cases hnil
    have hlost : (f.skipBlock stopAtElse 0).2.ahead.length < S.forkBefore.tail.length := by
      rw [hrest]
      exact Frame.length_skipRounds_lt htail
    rw [Supply.skipBlock_withTop]
    cases hfound : (f.skipBlock stopAtElse 0).1 with
    | ok found => exact hlost
    | error fault =>
      -- Nothing is left of the script.
      have hnil : (f.skipBlock stopAtElse 0).2.ahead = [] := by
        rw [hrest, Frame.skipRounds_of_error (houtcome.symm.trans hfound)]
      have hend := (Reading.isToken_iff _ _).2 (Frame.peek_of_ahead_nil hnil)
      show S.Lost (⟨(f.skipBlock stopAtElse 0).2, [], false⟩ : Supply).skipLine
      rw [Supply.skipLine, Synced.peek_root, dif_pos hend]
      exact Nat.lt_of_le_of_lt (Frame.length_ahead_peek_le _) hlost

variable {s t : ParseState} {f : Frame} {n : Nat}

theorem turnRel_before (h : S.Fits) (hst : S.forkBefore.Inside s t) (hapt : Written S.env s) :
    Leaves S.Lost (statement S.env s) ∨
      TurnRel S.forkBefore.Along byValue.account.Told (turn S.env s) (turn S.env t) := by
  apply Fork.turnRel S.Lost _ _ hst hapt
  · intro d wanted _
    apply agreeOr_if
    exact fun s t hst =>
      skip_before h (Firm.on_of_after hst) (fun hQ hsuffix => hQ.suffix hsuffix) true
  · apply Pairing.skipsElse
    intro s t hready hfile hs ht
    have hon := Fork.on_eat (.of_ready hready) hfile hs ht ⟨by simp, by simp⟩
    refine skip_before h hon (fun hP hsuffix => ?_) false
    exact (hP.2.suffix (List.suffix_cons _ _)).suffix hsuffix

/-! ### The line -/

/-- The name of a file and the end of the line, where nothing but the script itself is read. -/
theorem fileName_of_ahead {limit : Nat} {name : String} {r₁ r₂ r₃ : Round} {rounds : List Round}
    (hlimit : limit ≠ 0) (hs : s.supply = ⟨f.peek.2, [], false⟩)
    (hahead : f.ahead = r₁ :: r₂ :: r₃ :: rounds) (hname : r₂.outcome = .ok (.text name))
    (hend : r₃.outcome = .ok .lineEnd) :
    ∃ root, fileName limit s = .ok name { s with supply := ⟨root, [], false⟩ } ∧ root.Akin f ∧
      root.ahead = rounds := by
  obtain ⟨_, _, hahead₂, _⟩ := Frame.peek_of_ahead hahead
  obtain ⟨hread₂, _, hahead₃, _⟩ := Frame.peek_of_ahead hahead₂
  obtain ⟨hread₃, _, hahead₄, _⟩ := Frame.peek_of_ahead hahead₃
  let f₂ := f.peek.2.eat
  let f₃ := f₂.peek.2.eat
  have hraw : peekRaw { s with supply := ⟨f₂, [], false⟩ } =
      .ok (.text name) { s with supply := ⟨f₂.peek.2, [], false⟩ } := by
    simp only [peekRaw, Synced.peek_root, f₂, hread₂, hname]
  have hpeek : peek limit { s with supply := ⟨f₃, [], false⟩ } =
      .ok .lineEnd { s with supply := ⟨f₃.peek.2, [], false⟩ } := by
    refine peek_of_plain hlimit ?_ (by simp)
    rw [Synced.peek_root, hread₃, hend]
  have hline : lineEnd limit { s with supply := ⟨f₃, [], false⟩ } =
      .ok () { s with supply := ⟨f₃.peek.2.eat, [], false⟩ } := by
    rw [lineEnd, bind_of_ok hpeek]
    rfl
  have heat : ({ s with supply := s.supply.eat } : ParseState) =
      { s with supply := ⟨f₂, [], false⟩ } := by
    rw [hs]
    rfl
  refine ⟨f₃.peek.2.eat, ?_, ?_, hahead₄⟩
  · rw [fileName]
    show (peekRaw >>= _) ({ s with supply := s.supply.eat } : ParseState) = _
    rw [heat, bind_of_ok hraw]
    show (lineEnd limit >>= _) { s with supply := ⟨f₃, [], false⟩ } = _
    rw [bind_of_ok hline]
    rfl
  · have hstep (g : Frame) : g.peek.2.eat.Akin g := (Frame.Akin.eat _).trans (Frame.Akin.peek g)
    exact (hstep _).trans ((hstep _).trans (hstep f))

/-- The line puts the file on top of the script. -/
theorem turn_line (h : S.Fits) (hs : s.supply = ⟨f, [], false⟩) (hfile : f.isFile = true)
    (hroute : f.route? = S.route) (hahead : f.ahead = (S.behind (S.line ++ S.after)).ahead) :
    ∃ root, turn S.env s = .on { s with
        supply := ⟨root, [.file (some S.place) (.ofBytes S.path S.file)], false⟩ } ∧
      root.isFile = true ∧ root.route? = S.route ∧
      ∃ text : TextStream, root.ahead = text.ahead ∧ text.held = none ∧ text.rest = S.after := by
  obtain ⟨r₁, r₂, r₃, text, hline, h₁, h₂, h₃, hheld, hrest⟩ := ahead_line h
  have hlimit := Script.limit_ne_zero h.ends
  rw [hline] at hahead
  have hpeek : peek S.env.limit s =
      .ok (.directive .includeScript) { s with supply := ⟨f.peek.2, [], false⟩ } := by
    refine peek_of_plain hlimit ?_ (by simp)
    rw [hs, Synced.peek_root, (Frame.peek_of_ahead hahead).1, h₁]
  obtain ⟨root, hname, hakin, hroot⟩ := fileName_of_ahead (f := f)
    (s := { s with supply := ⟨f.peek.2, [], false⟩ }) hlimit rfl hahead h₂ h₃
  have hopen : (⟨root, [], false⟩ : Supply).openFiles = S.start.supply.openFiles := by
    show [root].filterMap Frame.route? = [Frame.file S.route _].filterMap Frame.route?
    rw [List.filterMap_cons, hakin.route?, hroute]
    rfl
  have hnamed : namedFile S.env { s with supply := ⟨f.peek.2, [], false⟩ } =
      .ok (S.included, S.path) { s with supply := ⟨root, [], false⟩ } := by
    have hfind : findFile? S.env ⟨root, [], false⟩ S.included =
        findFile? { S.env with tree := S.env.tree } S.start.supply S.included :=
      findFile?_congr hopen (fun _ => rfl) S.included
    rw [namedFile_eq, bind_of_ok hname, located, hfind, h.found]
  have hclosed : S.place ∉ (⟨root, [], false⟩ : Supply).openFiles := by
    rw [hopen]
    show S.place ∉ [Frame.file S.route _].filterMap Frame.route?
    have hclosed := h.closed
    cases hr : S.route with
    | none => simp [Frame.route?]
    | some route =>
      rw [hr] at hclosed
      simpa [Frame.route?, eq_comm] using hclosed
  have hstatement := statement_of_include hpeek
  rw [includeScript_of_namedFile hnamed h.resolved, if_neg hclosed, h.content] at hstatement
  refine ⟨root, ?_, hakin.isFile.trans hfile, hakin.route?.trans hroute, text, hroot, hheld, hrest⟩
  rw [turn, hstatement]
  rfl

/-! ### The file -/

/-- The file on top of the script, beside its text in the script. -/
def forkFile (S : Splice) (root : Frame) (hroot : root.isFile = true) (tail' : List Round) : Fork where
  P tokens := tokens ≠ [] ∧ BlockLines tokens
  Q := BlockLines
  E := BlockLines
  stretch := stretch_blocks
  settled h := h
  suffix h := h.suffix
  left := ⟨root, [.file (some S.place) (.ofBytes S.path S.file)], false⟩
  right := (S.spliced.start S.defines).supply
  reading := ⟨rfl, rfl⟩
  isUsing name := by
    show [root].any (Frame.isUseOf name) = false
    simp [Frame.isUseOf_of_isFile hroot]
  tail := []
  tail' := tail'

/-- The line of a directive for a block in the file. -/
def forkCondition (S : Splice) (root : Frame) (hroot : root.isFile = true) (tail' : List Round)
    (depth : Nat) : Fork :=
  { S.forkFile root hroot tail' with
    P := fun tokens => tokens ≠ [] ∧ PlainLines tokens ∧ Balanced false depth tokens = true
    Q := fun tokens => PlainLines tokens ∧ ∃ start, Balanced start depth tokens = true
    stretch := stretch_condition depth
    settled := fun h => ⟨h.1, h.2.elim fun start h => ⟨start, depth, h⟩⟩
    suffix := fun h hsuffix =>
      BlockLines.suffix ⟨h.1, h.2.elim fun start h => ⟨start, depth, h⟩⟩ hsuffix }

section File

variable {root : Frame} {hroot : root.isFile = true} {tail' : List Round}

/-- A block that is open ends in the file. -/
theorem skip_file {F : Fork} {R : List Token → Prop} {s t : Supply}
    (hst : F.firm.On (Shared F.tail F.tail' R) s t)
    (hsuffix : ∀ {tokens tokens'}, R tokens → tokens' <:+ tokens → F.E tokens')
    (hopen : ∀ {tokens}, R tokens → ∃ start depth, 0 < depth ∧ Balanced start depth tokens = true)
    (stopAtElse : Bool) :
    SkipAlike F.pairing.beside (s.skipBlock stopAtElse) (t.skipBlock stopAtElse) := by
  refine (Fork.skip_on hst hsuffix stopAtElse).resolve_right ?_
  rintro ⟨f, xs, tokens, fault, _, _, htokens, hR, hfault⟩
  obtain ⟨start, depth, hpos, hbalanced⟩ := hopen hR
  exact Balanced.found hbalanced htokens stopAtElse hpos fault hfault

/-- A condition in the file: its block ends there. -/
theorem agree_condition {env : Environment} {d : Directive} (hd : d = .ifDefined ∨ d = .ifUndefined)
    (wanted : Bool) :
    AgreeOr (S.forkFile root hroot tail').pairing.beside (fun _ => False)
      ((S.forkFile root hroot tail').pairing.beside.Meets d) (conditional env wanted)
      (conditional env wanted) fun _ => (S.forkFile root hroot tail').Along := by
  rintro s t ⟨hfacing, hfile⟩
  obtain ⟨f, g, hs, ht, hfg, hf, hg⟩ :=
    Fork.on_eat hfacing.supply hfile hfacing.left hfacing.right ⟨by simp, by simp⟩
  obtain ⟨xs, ys, tokens, hxs, hys, hpaced, htokens, _, hplain, start, depth, hbalanced⟩ := hfg.ahead
  -- The directive opens a block, and the rest of its line opens and closes none.
  have hinner : Balanced false (depth + 1) tokens = true := by
    rcases hd with rfl | rfl
    · exact (Bool.and_eq_true_iff.1 hbalanced).2
    · exact (Bool.and_eq_true_iff.1 hbalanced).2
  let F := S.forkCondition root hroot tail' (depth + 1)
  have hready : F.firm.On F.firm.T s.supply.eat t.supply.eat :=
    ⟨f, g, hs, ht, ⟨hfg.left, hfg.right, xs, ys, tokens, hxs, hys, hpaced, htokens,
      hplain.ne_nil ⟨by simp, by simp⟩, hplain.suffix (List.suffix_cons _ _), hinner⟩, hf, hg⟩
  have hreads : F.pairing.beside.Reads { s with supply := s.supply.eat }
      { t with supply := t.supply.eat } :=
    ⟨hfacing.toAlong.move (.of_ready hready), fun _ _ _ => trivial⟩
  have hskip : Skips F.pairing.beside (fun _ => False) F.pairing.After true := by
    refine fun s t hst => .inr (skip_file (Firm.on_of_after hst) F.suffix (fun hQ => ?_) true)
    obtain ⟨_, start, hbalanced⟩ := hQ
    exact ⟨start, depth + 1, Nat.succ_pos depth, hbalanced⟩
  have hbetween : ∀ s t, F.pairing.Between s t →
      (S.forkFile root hroot tail').pairing.Between s t := by
    intro s t hst
    rcases Firm.between_cases hst with hsettled | ⟨us, us', s₀, t₀, hended, rfl, rfl, huses, hready⟩
    · exact .inl hsettled
    · refine .inr (.inl ⟨us, us', s₀, t₀, hended, rfl, rfl, huses, ?_⟩)
      exact Firm.On.mono hready fun h => h.mono fun tokens hP => ⟨hP.1, hP.2.1, false, _, hP.2.2⟩
  have halike := (agreeOr_choose env wanted hskip _ _ hreads).resolve_left (not_leaves _)
  exact .inr (.cast (B := F.pairing.beside) rfl (fun _ => id) hbetween halike)

theorem turnRel_file {env : Environment} {s t : ParseState}
    (hst : (S.forkFile root hroot tail').Inside s t) (hapt : Written env s) :
    TurnRel (S.forkFile root hroot tail').Along byValue.account.Told (turn env s) (turn env t) := by
  refine (Fork.turnRel (fun _ => False) ?_ ?_ hst hapt).resolve_left (not_leaves _)
  · exact fun d wanted hd => agree_condition hd wanted
  · apply Pairing.skipsElse
    intro s t hready hfile hs ht
    have hon := Fork.on_eat (.of_ready hready) hfile hs ht ⟨by simp, by simp⟩
    refine .inr (skip_file hon (fun hP hsuffix => ?_) (fun hP => ?_) false)
    · exact (hP.2.suffix (List.suffix_cons _ _)).suffix hsuffix
    · obtain ⟨_, _, start, depth, hbalanced⟩ := hP
      have hparts := Bool.and_eq_true_iff.1 hbalanced
      have hpos : depth ≠ 0 := by simpa using (Bool.and_eq_true_iff.1 hparts.1).2
      exact ⟨false, depth, Nat.pos_of_ne_zero hpos, hparts.2⟩

end File

/-! ### After the file -/

/-- Files at the same pace. -/
def atPace : Synced where
  toLikeness := byValue
  T _ := Paced
  D _ := Paced
  W := Paced
  Apt _ s := s.top.isFile = true
  lockstep _ := TextStream.Paced.lockstep
  whole := TextStream.Paced.lockstep
  top h := h
  follows := .inr ⟨fun _ h => h, fun _ => TextStream.Paced.definesAlike⟩

/-- The rest of both scripts. -/
abbrev rest : Pairing := atPace.pairing atPace.Rested fun _ _ h => h

theorem within_of_rested {s t : Supply} (h : atPace.Rested s t) : rest.Within s t :=
  h.within fun _ _ _ hfile _ => hfile

theorem within_of_between {s t : Supply} (h : rest.Between s t) : rest.Within s t := by
  rcases h with hrested | hwithin | hcarried
  · exact within_of_rested hrested
  · exact hwithin
  · exact within_of_rested (Synced.rested_of_after (.inr hcarried))

theorem turnRel_after {env : Environment} (hst : rest.beside.Along rest.Between s t)
    (hapt : Written env s) :
    TurnRel (rest.beside.Along rest.Between) byValue.account.Told (turn env s) (turn env t) := by
  have hskip (s t : Supply) (h : atPace.Rested s t) : rest.Between s.skipLine t.skipLine :=
    Beside.Within.skipLine (B := rest.beside) (within_of_rested h)
  have hfiles : Files rest.beside env env.tree := by
    refine Synced.files hskip (fun _ => rfl) (fun _ => rfl) (fun _ _ => .rfl) ?_ ?_
    · intro path route content content' _ hread hread'
      obtain rfl := Except.ok.inj (hread.symm.trans hread')
      exact .refl _
    · intro path content content' p q hread hread' _
      obtain rfl := Except.ok.inj (hread.symm.trans hread')
      rfl
  exact Synced.turnRel (fun _ _ _ => rfl) hfiles (fun _ => TextStream.Paced.skipsAlike) TextStream.Paced.skipsAlike hskip
    (hst.weaken within_of_between) hapt

/-! ### All together -/

/-- Both scripts are before the line, in the file, or after it. -/
inductive InStep (S : Splice) (s t : ParseState) : Prop
  | before (hcoming : S.Coming s) (h : S.forkBefore.Along s t)
  | file (root : Frame) (hroot : root.isFile = true) (tail' : List Round)
      (hroute : root.route? = S.route) (hpaced : Paced root.ahead tail')
      (h : (S.forkFile root hroot tail').Along s t)
  | after (h : rest.beside.Along rest.Between s t)

theorem length_of_rest {text : TextStream} (hheld : text.held = none)
    (hrest : text.rest = S.line ++ S.after) :
    (Frame.file S.route text).ahead.length = (S.behind (S.line ++ S.after)).ahead.length := by
  rw [Frame.ahead_file]
  exact (TextStream.paced_of_rest (t := S.behind (S.line ++ S.after)) hheld rfl hrest).1.length_eq

/-- A line that is still ahead has not been passed. -/
theorem Coming.length_le (h : S.Coming s) (hs : Reaches S.env n S.start s) :
    (S.behind (S.line ++ S.after)).ahead.length ≤ s.supply.root.ahead.length := by
  obtain ⟨m, u, text, hreach, hu, hheld, hrest⟩ := h
  have hle := hs.length_root_le hreach
  rwa [hu, length_of_rest hheld hrest] at hle

/-- Before the line there is another turn. -/
theorem Coming.next (h : S.Coming s)
    (hlonger : (S.behind (S.line ++ S.after)).ahead.length < s.supply.root.ahead.length) :
    ∃ next, turn S.env s = .on next ∧ S.Coming next := by
  obtain ⟨m, u, text, hreach, hu, hheld, hrest⟩ := h
  cases hreach with
  | refl =>
    rw [hu, length_of_rest hheld hrest] at hlonger
    exact absurd hlonger (Nat.lt_irrefl _)
  | on hturn hnext => exact ⟨_, hturn, _, u, text, hnext, hu, hheld, hrest⟩

theorem length_root_of_within {s t : Supply} (h : S.forkBefore.pairing.Within s t) :
    (S.behind (S.line ++ S.after)).ahead.length < s.root.ahead.length := by
  obtain ⟨us, us', s₀, t₀, _, rfl, rfl, _, f, g, rfl, _, hfg, _⟩ := h
  obtain ⟨a, b, as, bs, token, ha, _, _, _, xs, ys, tokens, rfl, _⟩ :=
    Shared.first hfg.ahead fun _ h => h.1
  show _ < f.ahead.length
  rw [ha, List.length_cons, List.length_append]
  exact Nat.lt_succ_of_le (Nat.le_add_left _ _)

theorem before_step (h : S.Fits) (hs : Reaches S.env n S.start s) (hcoming : S.Coming s)
    (hst : S.forkBefore.Along s t) (hapt : Written S.env s) :
    Steps S.InStep byValue.account.Told S.env S.env s t := by
  rcases Fork.between_cases hst.supply fun _ _ hE => ⟨by simp, hE⟩ with
    hwithin | ⟨f, g, hf, hg, hleft, hright, hahead, hahead', hroute, hroute'⟩
  · right
    obtain ⟨next, hturn, hcoming'⟩ := hcoming.next (length_root_of_within hwithin)
    rcases turnRel_before h (hst.weaken fun _ => hwithin) hapt with hlost | hrel
    · have hlost := lost_of_leaves hlost hturn
      have hle := hcoming'.length_le (hs.trans (.on hturn (.refl next)))
      exact absurd hlost (Nat.not_lt_of_le hle)
    · refine hrel.imp fun s' t' hs' hst' => .before ?_ hst'
      obtain rfl := Turn.on.inj (hturn.symm.trans hs')
      exact hcoming'
  · left
    obtain ⟨root, hturn, hroot, hsame, text, hrest, hheld, hbytes⟩ := turn_line h hf hleft hroute hahead
    obtain ⟨ys, tokens, text', hys, hpaced, htokens, hblocks, hheld', hbytes'⟩ := ahead_file h
    refine ⟨_, hturn, .file root hroot text'.ahead hsame ?_ { hst with supply := .inl ?_ }⟩
    · rw [hrest]
      exact (TextStream.paced_of_rest hheld hheld' (hbytes.trans hbytes'.symm)).1
    · refine ⟨.file (some S.place) (.ofBytes S.path S.file), g, rfl, hg, ⟨rfl, hright, ?_⟩, rfl, hroute'⟩
      rw [Frame.ahead_file, hahead']
      exact ⟨_, ys, tokens, (List.append_nil _).symm, hys, hpaced, htokens, hblocks⟩

theorem file_step (h : S.Fits) {root : Frame} {hroot : root.isFile = true} {tail' : List Round}
    (hroute : root.route? = S.route) (hpaced : Paced root.ahead tail')
    (hst : (S.forkFile root hroot tail').Along s t) (hapt : Written S.env s) :
    Steps S.InStep byValue.account.Told S.env S.env s t := by
  rcases Fork.between_cases hst.supply fun _ _ hE => ⟨by simp, hE⟩ with
    hwithin | ⟨f, g, hf, hg, hleft, hright, hahead, hahead', _, hroute'⟩
  · have hrel := turnRel_file (hst.weaken fun _ => hwithin) hapt
    exact .inr (hrel.imp fun _ _ _ => .file root hroot tail' hroute hpaced)
  · -- The end of the file is the end of a line of its own.
    have hpeek : s.supply.peek = (.ok .lineEnd, ⟨root, [], true⟩) := by
      rw [hf]
      exact Synced.peek_fileEnd [] hleft (Frame.peek_of_ahead_nil hahead)
    refine .inl ⟨_, turn_of_lineEnd (Script.limit_ne_zero h.ends) hpeek,
      .after { hst with supply := .inr (.inl (.of_ready ?_)) }⟩
    show atPace.Ready ⟨root, [], false⟩ t.supply
    rw [hg]
    refine .of_root ⟨hroot, hright, ?_⟩ (hroute.trans hroute'.symm)
    rw [hahead']
    exact hpaced

theorem instep_start (h : S.Fits) : S.InStep S.start (S.spliced.start S.defines) := by
  refine .before h.reached ⟨.inl ?_, Script.predefined_near (fun _ => trivial) S.defines, rfl, .nil, .nil⟩
  refine ⟨_, _, rfl, rfl, ⟨rfl, rfl, ?_⟩, rfl, rfl⟩
  obtain ⟨hleft, tokens, htokens, hplain⟩ := ahead_before h (S.line ++ S.after)
  obtain ⟨hright, _⟩ := ahead_before h (S.file ++ S.after)
  rw [Frame.ahead_file, Frame.ahead_file]
  exact ⟨_, _, tokens, hleft, hright, .refl _, htokens, hplain⟩

/-- An included file can be put in place of the line that includes it: where the text before the line
    and the file are whole lines that name no files, the file's blocks end in it, and no directive
    comes out of a macro, both texts give the same statements and messages. -/
theorem including_alike_spliced (S : Splice) (h : S.Fits) :
    Parsed.Alike (fun a b => a.value = b.value) (S.including.parse S.env S.defines)
      (S.spliced.parse S.env S.defines) := by
  refine Script.parse_alike (A := byValue) rfl ?_ (instep_start h) h.ends
  intro n s t hs hst
  have hapt : Written S.env s := by
    intro d s' hpeek
    have hwritten := h.written n s hs
    rwa [directiveWritten, hpeek] at hwritten
  cases hst with
  | before hcoming hst => exact before_step h hs hcoming hst hapt
  | file root hroot tail' hroute hpaced hst => exact file_step h hroute hpaced hst hapt
  | after hst => exact .inr ((turnRel_after hst hapt).imp fun _ _ _ => .after)

/-- A script of two files, with the included one apart. -/
def ofTexts (before line after file : String) : Splice :=
  { env := { twoFiles (before ++ line ++ after) file with limit := 40 }
    defines := []
    name := "main.event"
    route := some ["main.event"]
    before := Utf8.encode before
    line := Utf8.encode line
    after := Utf8.encode after
    file := Utf8.encode file
    included := "included.event"
    path := "/included.event"
    place := ["included.event"] }

/-- A file with a block of its own, included in a block. -/
theorem including_alike_spliced_blocks :
    let S := ofTexts "#define A 1\n#ifdef A\n" "#include \"included.event\"\n" "BYTE C\n#endif\n"
      "#ifndef B\nBYTE A\n#else\nBYTE 2\n#endif\n#define C 3\n"
    S.Fits ∧ Parsed.Alike (fun a b => a.value = b.value) (S.including.parse S.env S.defines)
      (S.spliced.parse S.env S.defines) := by
  intro S
  let states := (states? S.env 40 S.start).getD []
  have hstates : states? S.env 40 S.start = some states := by decide +kernel
  have hfits : S.Fits := by
    refine ⟨⟨(TextStream.lineTokens? S.before).getD [], ?_, ?_⟩,
      ⟨(TextStream.lineTokens? S.file).getD [], ?_, ?_, ?_⟩, ?_, ?_, ?_, ?_, ?_, ?_, ?_, ?_⟩
    · decide +kernel
    · decide +kernel
    · decide +kernel
    · decide +kernel
    · decide +kernel
    · decide +kernel
    · decide +kernel
    · decide +kernel
    · decide +kernel
    · decide +kernel
    · have hmem : states.getD 3 S.start ∈ states := by decide +kernel
      obtain ⟨n, hreach⟩ := reaches_of_mem_states? hstates hmem
      let text := { TextStream.ofBytes S.name (S.line ++ S.after) with place := ⟨3, 1⟩, start := ⟨2, 9⟩ }
      refine ⟨n, _, text, hreach, ?_, rfl, rfl⟩
      decide +kernel
    · intro n s hs
      have hall : states.all (directiveWritten S.env) = true := by decide +kernel
      exact List.all_eq_true.1 hall s (hs.mem_states? hstates)
    · decide +kernel
  exact ⟨hfits, including_alike_spliced S hfits⟩

/-- A `#define` that comes out of a macro takes a parenthesis in another file for one that follows the
    name of its macro directly, since it goes by line and column. -/
theorem including_not_alike_spliced :
    let S := ofTexts "#define D #define FOO\n" "#include \"included.event\"\n" "BYTE FOO\n"
      "D                    (7)\n"
    (S.including.parse S.env S.defines).outcome.map (·.map Located.value) =
        .ok [.data 1 [⟨[.label "FOO"]⟩]] ∧
      (S.spliced.parse S.env S.defines).outcome.map (·.map Located.value) =
        .ok [.data 1 [⟨[.number 7]⟩]] := by
  decide +kernel

end Splice

end CartScript
