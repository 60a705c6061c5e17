import CartScript.Proofs.Script.Beside

/-!
# Directives side by side

Directives agree on two scripts that are read side by side, where the sources promise what reaches
over the end of the line: blocks that are skipped, and files that are included.
-/

namespace CartScript.Parsing

open Beside

variable {B : Beside} {α β : Type}

/-! ## Directives within a line -/

theorem agree_paramNames (limit : Nat) (names : Array String) :
    B.Steady (paramNames limit names) := by
  induction limit generalizing names with
  | zero => exact Agree.throw fun s t h => h.recovers
  | succ limit ih =>
    unfold paramNames
    refine (agree_name _).bind fun next => agree_peekRaw.bind fun token => ?_
    split
    · exact agree_next (.symbol _) <| ih _
    · exact agree_next (.symbol _) <| Agree.pure fun s t h => h
    · exact agree_fault

/-- After the name of a macro, which is at `p` and at `q`: a parenthesis follows it on both sides or
    on none. -/
def Paired (B : Beside) (name : String) (p q : Position) (s t : ParseState) : Prop :=
  B.Reads s t ∧ (s.supply.peek.1 = .ok (.symbol .openParen) →
    (Position.Follows name p s.supply.peek.2.position ↔
      Position.Follows name q t.supply.peek.2.position))

theorem agree_params (env : Environment) (name : String) (p q : Position) :
    B.Agree (Paired B name p q) (params env name p) (params env name q) fun _ => B.Reads := by
  intro s t h
  unfold params
  refine (alike_peekRaw h.1).bind fun token => ?_
  rintro s' t' ⟨hfacing, hs, ht⟩
  split
  · exact .ok hfacing.toReads
  · rename_i hparen
    obtain rfl : token = .symbol .openParen := Decidable.of_not_not hparen
    -- Both sides stand on a parenthesis, and take it for the same.
    have hfollows : Position.Follows name p s'.supply.position ↔
        Position.Follows name q t'.supply.position := by
      have hfollows := h.2 (by rw [hs])
      rwa [hs, ht] at hfollows
    have htest (place next : Position) :
        (next.line ≠ place.line ∨ next.column ≠ place.column + name.utf8ByteSize) ↔
          ¬Position.Follows name place next := by
      unfold Position.Follows
      omega
    refine alike_ite ((htest _ _).trans (hfollows.not.trans (htest _ _).symm)) hfacing ?_ ?_
    · exact Agree.pure fun s t h => h.toReads
    · refine agree_next (.symbol _) <| agree_peekRaw.bind fun token => ?_
      split
      · rename_i hclose
        subst hclose
        exact agree_next (.symbol _) <| Agree.pure fun s t h => h
      · exact (agree_facing (agree_paramNames _ _) token).bind fun _ => Agree.pure fun s t h => h

/-- The parts of a macro's body that were read. -/
structure BodyNear (near : Position → Position → Prop) (a b : Pieces) : Prop where
  pieces : List.Forall₂ (Located.Near near) a b
  inline : Supply.BodyHas Token.Inline a

theorem BodyNear.push {near : Position → Position → Prop} {done done' : Array (Located Piece)}
    (h : BodyNear near done.toList done'.toList) {p q : Position} (hpq : near p q) {token : Token}
    (htoken : token.Inline) (params : Option (List String)) :
    BodyNear near (done.push ⟨p, Supply.pieceOf params token⟩).toList
      (done'.push ⟨q, Supply.pieceOf params token⟩).toList := by
  constructor
  · simp only [Array.toList_push]
    exact List.rel_append h.pieces (.cons ⟨hpq, rfl⟩ .nil)
  · intro piece hpiece found hfound
    simp only [Array.toList_push, List.mem_append, List.mem_singleton] at hpiece
    rcases hpiece with hpiece | rfl
    · exact h.inline piece hpiece found hfound
    · rw [Supply.eq_of_pieceOf hfound]
      exact htoken

theorem twin_body {s t : Supply} (h : B.Within s t) (params : Option (List String))
    {done done' : Array (Located Piece)} (hdone : BodyNear B.near done.toList done'.toList) :
    B.Twin (BodyNear B.near) (s.body params done) (t.body params done') := by
  obtain ⟨hread, hnext⟩ := B.peek h
  rw [Supply.body, Supply.body.eq_def (s := t), ← hread]
  by_cases hend : Reading.isToken .fileEnd s.peek.1 = true
  · simp only [dif_pos hend]
    exact .ok hdone hnext
  · simp only [dif_neg hend]
    cases hr : s.peek.1 with
    | error fault => exact .error hnext
    | ok token =>
      by_cases hline : token = .lineEnd
      · subst hline
        exact .ok hdone hnext
      · have htoken : token.Inline := ⟨hline, by rintro rfl; simp [hr] at hend⟩
        have heat := B.eat h (by rw [hr]; exact Reading.inline_ok.2 htoken)
        have hrec := twin_body heat params (hdone.push (B.position h hr htoken) htoken params)
        split
        · rename_i h
          cases h
        · rename_i h
          exact absurd (Except.ok.inj h) hline
        · rename_i h
          obtain rfl := Except.ok.inj h
          exact hrec
termination_by s.remaining
decreasing_by exact s.remaining_eat_lt (by simpa using hend)

/-- The macros that a `#define` adds to stay the same. -/
theorem agree_define (env : Environment) :
    B.Agree (B.Meets .define) (define env) (define env) fun _ => B.Along B.Between := by
  rintro s t ⟨h, hapt⟩
  have hdirective := Token.Inline.directive .define
  unfold define
  -- Up to the name the sources are followed step by step, since the parenthesis is compared with it.
  have heat : B.Reads { s with supply := s.supply.eat } { t with supply := t.supply.eat } :=
    (agree_eat hdirective s t h).get
  show B.Alike _ ((peekRaw >>= _) { s with supply := s.supply.eat })
    ((peekRaw >>= _) { t with supply := t.supply.eat })
  refine (alike_peekRaw heat).bind fun token => ?_
  rintro s₁ t₁ ⟨hfacing, hs₁, ht₁⟩
  split
  · rename_i name
    have hname := Token.Inline.name name
    have hnear := hfacing.near hname
    have hpaired : Paired B name s₁.supply.position t₁.supply.position
        { s₁ with supply := s₁.supply.eat } { t₁ with supply := t₁.supply.eat } := by
      have hreads := (agree_eat hname s₁ t₁ hfacing).get
      refine ⟨hreads, fun hparen => ?_⟩
      have hparen' := (B.peek hreads.supply).1 ▸ hparen
      dsimp only at hs₁ ht₁ hparen hparen' ⊢
      have hfollows := B.follows h.supply hapt name ⟨h.left, by rw [hs₁], by rw [hs₁]; exact hparen⟩
        ⟨h.right, by rw [ht₁], by rw [ht₁]; exact hparen'⟩
      rwa [hs₁, ht₁] at hfollows
    show B.Alike _ ((params env name s₁.supply.position >>= _) { s₁ with supply := s₁.supply.eat })
      ((params env name t₁.supply.position >>= _) { t₁ with supply := t₁.supply.eat })
    refine ((agree_params env name _ _).bind fun params => ?_) _ _ hpaired
    refine agree_onSupply (fun _ _ hst => twin_body hst params ⟨by simp, by simp [Supply.BodyHas]⟩) ?_
    intro body body' hbody s t hst
    have hput : B.Agree B.Reads
        (modify fun state => { state with macros := state.macros.put name ⟨name, params, body⟩ })
        (modify fun state => { state with macros := state.macros.put name ⟨name, params, body'⟩ })
        fun _ => B.Along B.Between := fun s t h =>
      .ok ⟨B.between h.supply, h.macros.put name ⟨rfl, rfl, hbody.pieces, hbody.inline⟩,
        h.openBlocks, h.statements, h.diagnostics⟩
    have hnote := agree_note (B := B) (X := B.Within) (B.heard_of_near hnear) .warning
      s!"macro \"{name}\" redefined"
    refine alike_ite (by rw [hst.macros.contains]) hst ?_ hput
    refine Agree.bind (Q := fun _ => B.Reads) ?_ fun _ => hput
    exact fun s t h => .ok ⟨(hnote s t h.toAlong).get, h.known⟩
  · exact .error hfacing.toReads.recovers

theorem lookup_filter_ne {κ β : Type} [BEq κ] [LawfulBEq κ] [DecidableEq κ] (entries : List (κ × β))
    (erased key : κ) :
    (entries.filter fun entry => entry.1 != erased).lookup key =
      if key = erased then none else entries.lookup key := by
  induction entries with
  | nil => simp
  | cons entry entries ih =>
    obtain ⟨other, value⟩ := entry
    by_cases hother : other = erased
    · rw [List.filter_cons_of_neg (by simp [hother]), ih, List.lookup_cons]
      split
      · rfl
      · rename_i hkey
        rw [beq_false_of_ne (hother ▸ hkey)]
    · rw [List.filter_cons_of_pos (by simpa using hother), List.lookup_cons, List.lookup_cons, ih]
      by_cases hkey : key = other
      · simp [hkey, hother]
      · simp [beq_false_of_ne hkey]

theorem find?_of_find?_erase {d : Dictionary α} {erased name : String} {a : α}
    (h : (d.erase erased).find? name = some a) : d.find? name = some a := by
  replace h := (lookup_filter_ne d.entries erased name).symm.trans h
  split at h
  · cases h
  · exact h

theorem agree_undefine (env : Environment) :
    B.Agree (B.Facing (.directive .undefine)) (undefine env) (undefine env)
      fun _ => B.Along B.Between := by
  unfold undefine
  refine agree_next (.directive _) <| (agree_name _).bind fun name => ?_
  refine Agree.bind (Q := fun _ => B.Reads) ?_ fun _ => agree_lineEnd _
  exact fun s t h => .ok ⟨{ h.toAlong with macros := h.macros.erase name },
    fun other m hm => h.known other m (find?_of_find?_erase hm)⟩

theorem agree_closeBlock (hlevel : B.deeper = 0) {X : Supply → Supply → Prop} :
    B.Agree (B.Along X) closeBlock closeBlock fun _ => B.Along X :=
  fun _ _ h => .ok { h with openBlocks := by rw [hlevel]; exact congrArg (· - 1) (h.level hlevel) }

theorem agree_endIf :
    B.Agree (B.Meets .endIf) endIf endIf fun _ => B.Along B.Between := by
  rintro s t ⟨h, hapt⟩
  have hlevel := B.level hapt (.inr rfl)
  unfold endIf
  refine alike_ite (by rw [h.level hlevel]) h ?_ ?_
  · exact agree_fault
  · refine agree_next (.directive _) ?_
    exact (agree_closeBlock hlevel).weaken (fun s t h => h.between) fun _ _ _ h => h

/-! ### Blocks that are skipped

Skipping a block goes on over the end of the line, so the sources have to promise more of it.  `Lost`
is where the left side may get to instead of staying in step. -/

/-- A block was skipped to where the left side is lost. -/
def SkipLost (Lost : Supply → Prop) : Except ParseFault Bool × Supply → Prop
  | (.ok _, s) => Lost s
  | (.error _, s) => Lost s.skipLine

/-- A block was skipped on both sides. -/
abbrev SkipAlike (B : Beside) : Except ParseFault Bool × Supply → Except ParseFault Bool × Supply → Prop :=
  Outcomes Eq B.Between B.Resumes

/-- Blocks are skipped on both sides. -/
def Skips (B : Beside) (Lost : Supply → Prop) (X : Supply → Supply → Prop) (stopAtElse : Bool) : Prop :=
  ∀ s t, X s t →
    SkipLost Lost (s.skipBlock stopAtElse) ∨
      SkipAlike B (s.skipBlock stopAtElse) (t.skipBlock stopAtElse)

/-- The result of the left side is lost. -/
def Leaves (Lost : Supply → Prop) : EStateM.Result ParseFault ParseState α → Prop
  | .ok _ s => Lost s.supply
  | .error _ s => Lost s.supply.skipLine

/-- Computations that agree unless the left side gets lost. -/
def AgreeOr (B : Beside) (Lost : Supply → Prop) (P : ParseState → ParseState → Prop)
    (p q : Parsing α) (Q : α → ParseState → ParseState → Prop) : Prop :=
  ∀ s t, P s t → Leaves Lost (p s) ∨ B.Alike Q (p s) (q t)

section Lost

variable {Lost : Supply → Prop} {P : ParseState → ParseState → Prop}

variable {Q : α → ParseState → ParseState → Prop} {R : β → ParseState → ParseState → Prop}
  {p q : Parsing α} {s t : ParseState} {f g : α → Parsing β} {d : Directive}
  {X : Supply → Supply → Prop}

theorem agreeOr_of_agree (h : B.Agree P p q Q) : AgreeOr B Lost P p q Q :=
  fun s t hst => .inr (h s t hst)

theorem alikeOr_bind (hp : B.Alike Q (p s) (q t)) (hf : ∀ a s' t', p s = .ok a s' → Q a s' t' →
      Leaves Lost (f a s') ∨ B.Alike R (f a s') (g a t')) :
    Leaves Lost ((p >>= f) s) ∨ B.Alike R ((p >>= f) s) ((q >>= g) t) := by
  show Leaves Lost (EStateM.bind p f s) ∨ B.Alike R (EStateM.bind p f s) (EStateM.bind q g t)
  unfold EStateM.bind
  generalize hs : p s = r, q t = r' at hp ⊢
  cases hp with
  | ok hQ => exact hf _ _ _ hs hQ
  | error h => exact .inr (.error h)

theorem agreeOr_bind (hp : B.Agree P p q Q) (hf : ∀ a, AgreeOr B Lost (Q a) (f a) (g a) R) :
    AgreeOr B Lost P (p >>= f) (q >>= g) R :=
  fun s t hst => alikeOr_bind (hp s t hst) fun a s' t' _ hQ => hf a s' t' hQ

/-- What follows does not read. -/
theorem agreeOr_andThen (hp : AgreeOr B Lost P p q Q)
    (hstill : ∀ a s, ∃ b s', f a s = .ok b s' ∧ s'.supply = s.supply)
    (hf : ∀ a, B.Agree (Q a) (f a) (g a) R) : AgreeOr B Lost P (p >>= f) (q >>= g) R := by
  intro s t hst
  rcases hp s t hst with hlost | hpq
  · left
    show Leaves Lost (EStateM.bind p f s)
    unfold EStateM.bind
    cases hs : p s with
    | ok a s' =>
      rw [hs] at hlost
      obtain ⟨b, s'', hrun, hsupply⟩ := hstill a s'
      dsimp only
      rw [hrun]
      show Lost s''.supply
      rw [hsupply]
      exact hlost
    | error fault s' =>
      rw [hs] at hlost
      exact hlost
  · exact .inr (hpq.bind hf)

theorem alikeOr_ite {R : α → ParseState → ParseState → Prop} {c c' : Prop} [Decidable c]
    [Decidable c'] {p' q' : Parsing α} (hc : c ↔ c') (hst : P s t) (hp : AgreeOr B Lost P p p' R)
    (hq : AgreeOr B Lost P q q' R) :
    Leaves Lost ((if c then p else q) s) ∨
      B.Alike R ((if c then p else q) s) ((if c' then p' else q') t) := by
  by_cases h : c
  · rw [if_pos h, if_pos (hc.1 h)]
    exact hp s t hst
  · rw [if_neg h, if_neg fun h' => h (hc.2 h')]
    exact hq s t hst

theorem agreeOr_skip {stopAtElse : Bool} (h : Skips B Lost X stopAtElse) :
    AgreeOr B Lost (B.Along X) (onSupply (Supply.skipBlock · stopAtElse))
      (onSupply (Supply.skipBlock · stopAtElse)) fun _ => B.Along B.Between := by
  intro s t hst
  simp only [onSupply]
  refine (h s.supply t.supply hst.supply).imp (fun hlost => ?_) fun hskip => ?_
  · generalize s.supply.skipBlock stopAtElse = r at hlost ⊢
    obtain ⟨outcome, supply⟩ := r
    cases outcome with
    | ok | error => exact hlost
  · generalize s.supply.skipBlock stopAtElse = r, t.supply.skipBlock stopAtElse = r' at hskip ⊢
    cases hskip with
    | ok hab h =>
      obtain rfl := hab
      exact .ok (hst.move h)
    | error h => exact .error (hst.move h)

/-- The rest of `#ifdef` and `#ifndef`. -/
def choose (env : Environment) (wanted : Bool) : Parsing Unit := do
  let name ← name "macro name"
  lineEnd env.limit
  let chosen ← if (← get).macros.contains name = wanted then pure true
    else onSupply (Supply.skipBlock · true)
  if chosen then modify fun state => { state with openBlocks := state.openBlocks + 1 }

/-- `choose` skips the same block. -/
theorem agreeOr_choose (env : Environment) (wanted : Bool) (hskip : Skips B Lost B.After true) :
    AgreeOr B Lost B.Reads (choose env wanted) (choose env wanted) fun _ => B.Along B.Between := by
  refine agreeOr_bind (agree_name _) fun name => agreeOr_bind (agree_lineEnd_after _) fun _ => ?_
  -- Only a block that is read counts as open; a skipped one is over already.
  have hopen (chosen : Bool) : B.Agree (B.Along B.Between)
      (if chosen = true then
        (modify fun s : ParseState => { s with openBlocks := s.openBlocks + 1 }) else pure ())
      (if chosen = true then
        (modify fun s : ParseState => { s with openBlocks := s.openBlocks + 1 }) else pure ())
      fun _ => B.Along B.Between := by
    cases chosen with
    | true =>
      exact fun _ _ h =>
        .ok { h with openBlocks := by rw [Nat.add_right_comm]; exact congrArg (· + 1) h.openBlocks }
    | false => exact Agree.pure fun s t h => h
  intro s t h
  refine alikeOr_ite (by rw [h.macros.contains]) h ?_ ?_
  · exact agreeOr_of_agree ((Agree.pure fun s t h => h.weaken B.after).bind hopen)
  · refine agreeOr_andThen (agreeOr_skip hskip) (fun chosen s => ?_) hopen
    cases chosen with
    | true | false => exact ⟨_, _, rfl, rfl⟩

theorem agreeOr_if (env : Environment) (wanted : Bool) (hskip : Skips B Lost B.After true) :
    AgreeOr B Lost (B.Meets d) (conditional env wanted) (conditional env wanted)
      fun _ => B.Along B.Between := by
  refine agreeOr_bind (Q := fun _ => B.Reads) ?_ fun _ => agreeOr_choose env wanted hskip
  exact (agree_eat (.directive _)).weaken (fun _ _ h => h.1) fun _ _ _ h => h

/-- Sources from which `#else` was just taken. -/
def AfterElse (B : Beside) (s t : Supply) : Prop :=
  ∃ s₀ t₀, B.Within s₀ t₀ ∧ B.Apt .otherwise s₀ ∧ s₀.peek = (.ok (.directive .otherwise), s₀) ∧
    t₀.peek = (.ok (.directive .otherwise), t₀) ∧ s = s₀.eat ∧ t = t₀.eat

theorem agreeOr_else (hskip : Skips B Lost (AfterElse B) false) :
    AgreeOr B Lost (B.Meets .otherwise) otherwise otherwise fun _ => B.Along B.Between := by
  intro s t h
  have hlevel := B.level h.2 (.inl rfl)
  unfold otherwise
  refine alikeOr_ite (by rw [h.1.level hlevel]) h ?_ ?_
  · exact agreeOr_of_agree (Agree.throw fun s t h => h.1.toReads.recovers)
  · refine agreeOr_bind (Q := fun _ => B.Along (AfterElse B)) ?_ fun _ =>
      agreeOr_andThen (agreeOr_skip hskip) (fun _ _ => ⟨_, _, rfl, rfl⟩) fun _ =>
        agree_closeBlock hlevel
    rintro s t ⟨h, hapt⟩
    exact .ok (h.toAlong.move ⟨_, _, h.supply, hapt, h.left, h.right, rfl, rfl⟩)

/-! ### Files

The files of the right side may have other contents; they are found at the same places. -/

/-- What the sources promise of files. -/
structure Files (B : Beside) (env : Environment) (tree : FileTree) : Prop where
  find : ∀ {s t}, B.After s t → ∀ name, findFile? env s name = findFile? { env with tree } t name
  skipLine : ∀ {s t}, B.After s t → B.Late t ∨ B.Between s.skipLine t.skipLine
  resolve : ∀ path, env.tree.resolve path = tree.resolve path
  unread : ∀ path fault, env.tree.read path = .error fault ↔ tree.read path = .error fault
  opened : ∀ {s t}, B.After s t → ∀ route,
    (s.frames.any fun f => f.route? == some route) = t.frames.any fun f => f.route? == some route
  push : ∀ {s t} {path : Path} {route : Route} {content content' : Array UInt8}, B.After s t →
    env.tree.resolve path = .ok route → (s.frames.any fun f => f.route? == some route) = false →
    env.tree.read path = .ok content → tree.read path = .ok content' →
    B.Between (s.push (.file (some route) (.ofBytes path content.toList)))
      (t.push (.file (some route) (.ofBytes path content'.toList)))
  bytes : ∀ {path : Path} {content content' : Array UInt8} {p q : Position},
    env.tree.read path = .ok content → tree.read path = .ok content' → B.near p q →
    B.same ⟨p, .bytes content⟩ ⟨q, .bytes content'⟩

variable {env : Environment} {tree : FileTree}

theorem Files.recovers (hfiles : Files B env tree) (h : B.Along B.After s t) : B.Recovers s t :=
  h.weaken fun h => ⟨B.stands (.inr h), hfiles.skipLine h⟩

/-- The name of a file after a directive, and the end of the line. -/
def fileName (limit : Nat) : Parsing String := do
  eat
  match ← peekRaw with
  | .text name =>
    eat
    lineEnd limit
    return name
  | _ => throw (.expectedName "file name")

/-- Where a file is, from the sources after the line. -/
def located (env : Environment) (name : String) : Parsing (String × Path) := fun s =>
  match findFile? env s.supply name with
  | some path => .ok (name, path) s
  | none => .error (.fileNotFound name) s

theorem namedFile_eq (env : Environment) : namedFile env = fileName env.limit >>= located env := by
  unfold namedFile fileName
  simp only [bind_assoc]
  congr 1
  funext _
  congr 1
  funext token
  cases token with
  | text name =>
    simp only [bind_assoc, pure_bind]
    congr 1
    funext _
    congr 1
    funext _ s
    show (match findFile? env s.supply name with
        | some path => pure (name, path)
        | none => throw (.fileNotFound name) : Parsing (String × Path)) s = located env name s
    unfold located
    cases findFile? env s.supply name with
    | some path | none => rfl
  | _ => rfl

theorem agree_fileName (limit : Nat) :
    B.Agree (B.Facing (.directive d)) (fileName limit) (fileName limit)
      fun _ => B.Along B.After := by
  unfold fileName
  refine agree_next (.directive _) <| agree_peekRaw.bind fun token => ?_
  split
  · refine agree_next (.text _) <| (agree_lineEnd_after _).bind fun _ => ?_
    exact Agree.pure fun s t h => h
  · exact agree_fault

/-- The file that is named is found on both sides or on none. -/
theorem agree_namedFile (hfiles : Files B env tree) :
    B.Agree (B.Facing (.directive d)) (namedFile env) (namedFile { env with tree })
      fun _ => B.Along B.After := by
  rw [namedFile_eq, namedFile_eq]
  refine (agree_fileName env.limit).bind fun name => ?_
  intro s t h
  unfold located
  rw [← hfiles.find h.supply name]
  cases findFile? env s.supply name with
  | some path => exact .ok h
  | none => exact .error (hfiles.recovers h)

/-- A file is read on both sides or on none. -/
theorem agree_read (hfiles : Files B env tree) {P : ParseState → ParseState → Prop}
    (hP : ∀ s t, P s t → B.Along B.After s t) {path : Path} {f g : Array UInt8 → Parsing β}
    (h : ∀ content content', env.tree.read path = .ok content → tree.read path = .ok content' →
      B.Agree P (f content) (g content') R) :
    B.Agree P (ofFile path (env.tree.read path) >>= f) (ofFile path (tree.read path) >>= g) R := by
  have hunread := hfiles.unread path
  cases hs : env.tree.read path with
  | ok content =>
    cases ht : tree.read path with
    | ok content' => exact h content content' hs ht
    | error fault =>
      have := (hunread fault).2 ht
      rw [hs] at this
      cases this
  | error fault =>
    rw [(hunread fault).1 hs]
    exact fun s t hst => .error (hfiles.recovers (hP s t hst))

theorem agree_includeBytes (hfiles : Files B env tree) {p q : Position} (hpq : B.near p q) :
    B.Agree (B.Facing (.directive .includeBytes)) (includeBytes env p)
      (includeBytes { env with tree } q) fun _ => B.Along B.Between := by
  unfold includeBytes
  refine (agree_namedFile hfiles).bind fun file => agree_read hfiles (fun _ _ h => h) ?_
  intro content content' hcontent hcontent' s t h
  refine .ok ⟨B.after h.supply, h.macros, h.openBlocks, ?_, h.diagnostics⟩
  simp only [ParseState.emit, Array.toList_push, ← List.append_assoc]
  exact List.rel_append h.statements (.cons (hfiles.bytes hcontent hcontent' hpq) .nil)

/-- `includeScript` opens the same file. -/
theorem agree_includeScript (hfiles : Files B env tree) :
    B.Agree (B.Facing (.directive .includeScript)) (includeScript env)
      (includeScript { env with tree }) fun _ => B.Along B.Between := by
  unfold includeScript
  refine (agree_namedFile hfiles).bind fun file => ?_
  simp only [← hfiles.resolve]
  cases hroute : env.tree.resolve file.2 with
  | error fault => exact fun s t h => .error (hfiles.recovers h)
  | ok route =>
    intro s t h
    have hopened := hfiles.opened h.supply route
    show B.Alike _ ((if (s.supply.frames.any fun f => f.route? == some route) = true then
        throw (.includeCycle file.1)
        else ofFile file.2 (env.tree.read file.2) >>= fun content =>
          pushFrame (.file (some route) (.ofBytes file.2 content.toList)) : Parsing Unit) s)
      ((if (t.supply.frames.any fun f => f.route? == some route) = true then
        throw (.includeCycle file.1)
        else ofFile file.2 (tree.read file.2) >>= fun content =>
          pushFrame (.file (some route) (.ofBytes file.2 content.toList)) : Parsing Unit) t)
    by_cases hopen : (s.supply.frames.any fun f => f.route? == some route) = true
    · rw [if_pos hopen, if_pos (hopened ▸ hopen)]
      exact .error (hfiles.recovers h)
    · rw [if_neg hopen, if_neg (hopened ▸ hopen)]
      refine agree_read (P := fun s t => B.Along B.After s t ∧
          (s.supply.frames.any fun f => f.route? == some route) = false)
        (R := fun _ => B.Along B.Between) hfiles (fun _ _ h => h.1) ?_ s t ⟨h, by simpa using hopen⟩
      rintro content content' hcontent hcontent' s t ⟨h, hopen⟩
      exact .ok (h.move (hfiles.push h.supply hroute hopen hcontent hcontent'))

/-- The directives that reach over the end of the line agree. -/
structure Crosses (B : Beside) (Lost : Supply → Prop) (env : Environment) (tree : FileTree) :
    Prop where
  stated : ∀ {p q}, B.near p q → B.Stated env p q
  script : AgreeOr B Lost (B.Meets .includeScript) (includeScript env)
    (includeScript { env with tree }) fun _ => B.Along B.Between
  bytes : ∀ p q, B.near p q → AgreeOr B Lost (B.Meets .includeBytes) (includeBytes env p)
    (includeBytes { env with tree } q) fun _ => B.Along B.Between
  condition : ∀ d wanted, d = .ifDefined ∨ d = .ifUndefined → AgreeOr B Lost (B.Meets d)
    (conditional env wanted) (conditional env wanted) fun _ => B.Along B.Between
  otherwise : Skips B Lost (AfterElse B) false

/-- A directive agrees where it does not have to be apt. -/
theorem agreeOr_meets (h : B.Agree (B.Facing (.directive d)) p q Q) :
    AgreeOr B Lost (B.Meets d) p q Q :=
  fun s t hst => .inr (h s t hst.1)

/-- Files that are named are in step, and blocks are skipped alike, where such directives may stand. -/
theorem Crosses.of_files (hstated : ∀ {p q}, B.near p q → B.Stated env p q)
    (hfiles : ∀ {d s}, d = .includeScript ∨ d = .includeBytes → B.Apt d s → Files B env tree)
    (hif : ∀ {d s}, d = .ifDefined ∨ d = .ifUndefined → B.Apt d s → Skips B Lost B.After true)
    (helse : Skips B Lost (AfterElse B) false) : Crosses B Lost env tree where
  stated := hstated
  script s t h := agreeOr_meets (agree_includeScript (hfiles (.inl rfl) h.2)) s t h
  bytes _ _ hpq s t h := agreeOr_meets (agree_includeBytes (hfiles (.inr rfl) h.2) hpq) s t h
  condition _ wanted hd s t h := agreeOr_if env wanted (hif hd h.2) s t h
  otherwise := helse

theorem Crosses.directive (h : Crosses B Lost env tree) {p q : Position} (hpq : B.near p q) :
    AgreeOr B Lost (B.Meets d) (directive env p d) (directive { env with tree } q d)
      fun _ => B.Along B.Between := by
  cases d with
  | includeScript => exact h.script
  | includeBytes => exact h.bytes p q hpq
  | define => exact agreeOr_of_agree (agree_define env)
  | undefine => exact agreeOr_meets (agree_undefine env)
  | ifDefined => exact h.condition _ true (.inl rfl)
  | ifUndefined => exact h.condition _ false (.inr rfl)
  | otherwise => exact agreeOr_else h.otherwise
  | endIf => exact agreeOr_of_agree agree_endIf

/-! ## One statement -/

/-- Statements agree where directives do. -/
theorem alikeOr_statement (hcross : Crosses B Lost env tree) (h : B.Reads s t)
    (hapt : ∀ d s', peek env.limit s = .ok (.directive d) s' → B.Apt d s'.supply) :
    Leaves Lost (statement env s) ∨
      B.Alike (fun _ => B.Along B.Between) (statement env s) (statement { env with tree } t) := by
  have htrue {P : ParseState → ParseState → Prop} {p q : Parsing Unit}
      (hp : AgreeOr B Lost P p q fun _ => B.Along B.Between) :
      AgreeOr B Lost P (p >>= fun _ => pure true) (q >>= fun _ => pure true)
        fun _ => B.Along B.Between :=
    agreeOr_andThen hp (fun _ _ => ⟨_, _, rfl, rfl⟩) fun _ => Agree.pure fun s t h => h
  unfold statement
  refine alikeOr_bind (agree_peek env.limit s t h) fun token s' t' hpeek hfacing => ?_
  cases token with
  | fileEnd => exact .inr (.ok hfacing.toReads.between)
  | lineEnd =>
    have heat := agree_eatLine (B := B).weaken (fun _ _ h => h) fun _ _ _ h => h.weaken B.after
    exact htrue (agreeOr_of_agree heat) s' t' hfacing
  | directive d =>
    have hnear := hfacing.near (.directive _)
    exact htrue (hcross.directive hnear) s' t' ⟨hfacing, hapt d s' hpeek⟩
  | name name =>
    have hnear := hfacing.near (.name _)
    exact htrue (agreeOr_of_agree (agree_named hnear (hcross.stated hnear))) s' t' hfacing
  | number value | text text | symbol symbol => exact .inr (.error hfacing.toReads.recovers)

end Lost

end CartScript.Parsing
