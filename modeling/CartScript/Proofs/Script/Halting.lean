import CartScript.Proofs.Script.Settling
import CartScript.Proofs.Script.Turns
import CartScript.Proofs.Symbols

/-!
# Reading a script comes to an end

In a script that includes no other script the limit of the loops does not matter, if it is high
enough.  What reads a script is shown to be `Quiet`, one function after the other.  A statement drops a
token, or has a fault, after which a token is dropped when the line is skipped, so that the loop of
statements ends too.
-/

namespace CartScript

variable {names : List String}

namespace Parsing

open ParseState

variable {α : Type} {s t : ParseState}

/-! ## Directives -/

theorem quiet_ofFile (path : Path) (outcome : Except FileFault α) :
    Quiet names fun _ _ => ofFile path outcome := by
  cases outcome with
  | ok a => exact .pure a
  | error fault => exact .throw rfl

theorem quiet_emit (place : Position) (statement : Statement) :
    Quiet names fun _ _ => emit place statement := .modify (fun _ => rfl) fun _ _ _ h => h

theorem quiet_note (severity : Severity) (place : Position) (text : String) :
    Quiet names fun _ _ => note severity place text := .modify (fun _ => rfl) fun _ _ _ h => h

theorem quiet_position : Quiet names fun _ _ => position := Quiet.get.bind fun _ => .pure _

theorem quiet_skipBlock (stopAtElse : Bool) :
    Quiet names fun _ _ => onSupply (Supply.skipBlock · stopAtElse) := by
  intro s hs
  have hconsumes := hs.supply.consumes_skipBlock stopAtElse
  refine .onSupply ?_ ?_
  · intro found supply hskip
    rw [hskip] at hconsumes
    exact after_of_consumes hs hconsumes
  · intro fault supply hskip
    rw [hskip] at hconsumes
    refine ⟨?_, after_of_consumes hs hconsumes⟩
    have hfault := (Frame.skipBlock_ahead stopAtElse 0 s.supply.top).1
    rw [show (s.supply.top.skipBlock stopAtElse 0).1 = .error fault from congrArg Prod.fst hskip] at hfault
    have hround := Frame.skipRounds_of_error hfault.symm
    rw [hround] at hfault
    obtain rfl := Except.error.inj hfault
    rfl

/-- The environment with another limit. -/
def within (env : Environment) (limit : Nat) : Environment := { env with limit }

variable (env : Environment)

theorem led_namedFile : Led names fun limit _ => namedFile (within env limit) := by
  have hfind (limit : Nat) : findFile? (within env limit) = findFile? env := rfl
  unfold namedFile
  refine led_eat.bind fun _ => quiet_peekRaw.bind fun token => ?_
  split
  · simp only [hfind]
    refine quiet_eat.bind fun _ => quiet_lineEnd.bind fun _ => Quiet.get.bind fun t => ?_
    split
    · exact .pure _
    · exact .throw rfl
  · exact .throw rfl

theorem led_includeBytes (place : Position) :
    Led names fun limit _ => includeBytes (within env limit) place := by
  unfold includeBytes
  refine (led_namedFile env).bind fun (_, path) => ?_
  exact (quiet_ofFile path (env.tree.read path)).bind fun _ => quiet_emit place _

theorem quiet_paramNames : Quiet names fun limit _ => paramNames limit #[] := by
  refine Quiet.loop (fun params _ rounds => paramNames rounds params) ?_ #[]
  intro params s hs ih
  simp only [paramNames]
  refine (quiet_name _ s hs).bind fun next t ht => (settles_peekRaw_since ht).bind ?_
  rintro token u ⟨hu, hface⟩
  split
  · exact .turn hu hface (by simp) (ih _)
  · exact (quiet_eat.bind fun _ => .pure _).since hu
  · exact (Quiet.throw rfl).since hu

theorem quiet_params (name : String) (place : Position) :
    Quiet names fun limit _ => params (within env limit) name place := by
  unfold params
  refine quiet_peekRaw.bind fun token => ?_
  split
  · exact .pure _
  refine quiet_position.bind fun next => ?_
  split
  · exact .pure _
  refine quiet_eat.bind fun _ => quiet_peekRaw.bind fun token => ?_
  split
  · exact quiet_eat.bind fun _ => .pure _
  · exact quiet_paramNames.bind fun _ => .pure _

/-- The body of a macro has tokens of the script. -/
theorem settles_body (params : Option (List String)) (hs : s.Orderly names) :
    Settles (fun _ _ => onSupply (Supply.body params #[])) s
      (fun body t => After names s t ∧ Supply.BodyHas (Token.Known names) body) (After names s) := by
  have hholds := hs.supply.toHolds
  have hread := hholds.bodyRead params
  have hafter {u : Supply} (hu : s.supply.Consumes u) : After names s { s with supply := u.peek.2 } :=
    after_of_consumes hs (hu.trans (hholds.consumes hu).consumes_peek)
  refine .onSupply ?_ ?_
  · intro body supply hbody
    rw [hbody] at hread
    obtain ⟨hknown, before, hbefore, rfl⟩ := hread
    exact ⟨hafter hbefore, hknown⟩
  · intro fault supply hbody
    rw [hbody] at hread
    obtain ⟨hfault, before, hbefore, rfl⟩ := hread
    exact ⟨hfault, hafter hbefore⟩

theorem After.put (h : After names s t) {m : Macro} (hname : m.name ∈ names)
    (hbody : Supply.BodyHas (Token.Known names) m.body) :
    After names s { t with macros := t.macros.put m.name m } := by
  refine ⟨⟨h.orderly.supply, ?_⟩, h.weight⟩
  intro name found hfound
  rw [Dictionary.find?_put] at hfound
  split at hfound
  · rename_i heq
    obtain rfl := Option.some.inj hfound
    exact ⟨heq.symm, heq ▸ hname, hbody⟩
  · exact h.orderly.macros name found hfound

theorem led_define : Led names fun limit _ => define (within env limit) := by
  unfold define
  refine led_eat.bind fun _ s hs => (settles_peekRaw_since (.refl hs)).bind ?_
  rintro token t ⟨ht, hface⟩
  split
  · rename_i name
    -- The name stands in the script, whichever source it was read from.
    have hname : name ∈ names :=
      (ht.orderly.supply.toHolds.known (congrArg Prod.fst hface)).1 name rfl
    refine (quiet_position.since ht).bind fun place t ht => ?_
    refine (quiet_eat.since ht).bind fun _ t ht => ?_
    refine ((quiet_params env name place).since ht).bind fun params t ht => ?_
    have hbodies := (settles_body params ht.orderly).imp
      (fun _ _ h => (⟨ht.trans h.1, h.2⟩ : After names s _ ∧ _)) fun _ => ht.trans
    refine hbodies.bind ?_
    rintro body t ⟨ht, hbody⟩
    have hput {u : ParseState} (hu : After names s u) :=
      After.put hu (m := { name, params, body }) hname hbody
    refine .get_bind ?_
    dsimp only
    split
    · exact ((quiet_note _ _ _).since ht).bind fun _ u hu => .of_meets (hput hu)
    · exact .of_meets (hput ht)
  · exact (Quiet.throw rfl).since ht

theorem led_undefine : Led names fun limit _ => undefine (within env limit) := by
  unfold undefine
  refine led_eat.bind fun _ => (quiet_name _).bind fun name => Quiet.bind ?_ fun _ => quiet_lineEnd
  exact .modify (fun _ => rfl) fun _ _ _ => find?_of_find?_erase

theorem led_conditional (wanted : Bool) :
    Led names fun limit _ => conditional (within env limit) wanted := by
  unfold conditional
  refine led_eat.bind fun _ => (quiet_name _).bind fun name => quiet_lineEnd.bind fun _ => ?_
  have hopen (chosen : Bool) : Quiet names fun _ _ => (if chosen = true then
      modify fun state => { state with openBlocks := state.openBlocks + 1 }
    else pure () : Parsing Unit) := by
    split
    · exact .modify (fun _ => rfl) fun _ _ _ h => h
    · exact .pure ()
  refine Quiet.get.bind fun state => ?_
  dsimp only
  split
  · exact (Quiet.pure true).bind hopen
  · exact (quiet_skipBlock true).bind hopen

theorem quiet_closeBlock : Quiet names fun _ _ => closeBlock :=
  .modify (fun _ => rfl) fun _ _ _ h => h

/-- A directive that is out of place is not dropped. -/
def Stray (names : List String) (s t : ParseState) : Prop := Sooner names s t ∨ s = t

theorem Led.stray {p : Nat → Nat → Parsing α} {token : Token} (hp : Led names p) (hs : s.Orderly names)
    (hface : Faces s token) (htoken : token ≠ .fileEnd) :
    Settles p s (fun _ => Sooner names s) (Stray names s) :=
  (hp s token hs hface htoken).imp (fun _ _ h => h) fun _ => .inl

theorem settles_otherwise (hs : s.Orderly names) (hface : Faces s (.directive .otherwise)) :
    Settles (fun _ _ => otherwise) s (fun _ => Sooner names s) (Stray names s) := by
  have hrest : Led names fun _ _ => eat >>= fun _ =>
      onSupply (Supply.skipBlock · false) >>= fun _ => closeBlock :=
    led_eat.bind fun _ => (quiet_skipBlock false).bind fun _ => quiet_closeBlock
  unfold otherwise
  refine .get_bind ?_
  split
  · exact .of_meets ⟨rfl, .inr rfl⟩
  · exact hrest.stray hs hface (by simp)

theorem settles_endIf (hs : s.Orderly names) (hface : Faces s (.directive .endIf)) :
    Settles (fun _ _ => endIf) s (fun _ => Sooner names s) (Stray names s) := by
  have hrest : Led names fun _ _ => eat >>= fun _ => closeBlock := led_eat.bind fun _ => quiet_closeBlock
  unfold endIf
  refine .get_bind ?_
  split
  · exact .of_meets ⟨rfl, .inr rfl⟩
  · exact hrest.stray hs hface (by simp)

/-- A directive drops its token, unless it is out of place. -/
theorem settles_directive (place : Position) {d : Directive} (hs : s.Orderly names)
    (hface : Faces s (.directive d)) : Settles (fun limit _ => directive (within env limit) place d) s
      (fun _ => Sooner names s) (Stray names s) := by
  cases d with
  | includeScript =>
    -- No source holds this directive.
    exact absurd rfl (hs.supply.toHolds.known (congrArg Prod.fst hface)).2
  | includeBytes => exact (led_includeBytes env place).stray hs hface (by simp)
  | define => exact (led_define env).stray hs hface (by simp)
  | undefine => exact (led_undefine env).stray hs hface (by simp)
  | ifDefined | ifUndefined => exact (led_conditional env _).stray hs hface (by simp)
  | otherwise => exact settles_otherwise hs hface
  | endIf => exact settles_endIf hs hface

/-! ## Expressions and arguments -/

theorem quiet_ofBuild (outcome : Except BuildFault α) : Quiet names fun _ _ => ofBuild outcome := by
  cases outcome with
  | ok a => exact .pure a
  | error fault => exact .throw rfl

theorem quiet_expr : Quiet names fun limit _ => expr limit := by
  refine Quiet.loop (fun b limit rounds => exprFrom limit rounds b) ?_ {}
  intro b s hs ih
  simp only [exprFrom]
  refine (settles_peek_since (.refl hs)).bind ?_
  rintro token t ⟨ht, hface⟩
  cases hoffer : offer b token with
  | error fault => exact .of_meets ⟨rfl, ht⟩
  | ok offered =>
    cases offered with
    | none => exact (quiet_ofBuild b.finish).since ht
    | some next =>
      -- The end of the script belongs to no expression.
      have htoken : token ≠ .fileEnd := by
        rintro rfl
        simp [offer] at hoffer
      exact .turn ht hface htoken (ih next)

theorem quiet_optionalExpr : Quiet names fun limit _ => optionalExpr limit := by
  unfold optionalExpr
  refine quiet_peek.bind fun token => ?_
  split
  · exact quiet_eat.bind fun _ => quiet_expr.bind fun _ => .pure _
  · exact .pure _

theorem quiet_dataItem (texts : Bool) : Quiet names fun limit _ => dataItem limit texts := by
  unfold dataItem
  refine quiet_peek.bind fun token => ?_
  split
  · exact quiet_eat.bind fun _ => .pure _
  · exact quiet_expr.bind fun _ => .pure _

theorem quiet_data (texts : Bool) : Quiet names fun limit _ => dataFrom limit texts limit #[] := by
  refine Quiet.loop (fun values limit rounds => dataFrom limit texts rounds values) ?_ #[]
  intro values s hs ih
  simp only [dataFrom]
  refine (quiet_dataItem texts s hs).bind fun item t ht => (settles_peek_since ht).bind ?_
  rintro token u ⟨hu, hface⟩
  split
  · rename_i hcomma
    exact .turn hu hface (by simp [hcomma]) (ih _)
  · exact (Quiet.pure _).since hu

theorem quiet_items : Quiet names fun limit _ => itemsFrom limit limit #[] := by
  refine Quiet.loop (fun items limit rounds => itemsFrom limit rounds items) ?_ #[]
  intro items s hs ih
  simp only [itemsFrom]
  refine (quiet_expr s hs).bind fun item t ht => (settles_peek_since ht).bind ?_
  rintro token u ⟨hu, hface⟩
  split
  · exact .turn hu hface (by simp) (ih _)
  · exact (quiet_eat.bind fun _ => .pure _).since hu
  · exact (Quiet.throw rfl).since hu

theorem quiet_arg : Quiet names fun limit _ => arg limit := by
  unfold arg
  refine quiet_peek.bind fun token => ?_
  split
  · exact quiet_eat.bind fun _ => .pure _
  · refine quiet_eat.bind fun _ => quiet_peek.bind fun token => ?_
    split
    · exact .throw rfl
    · exact quiet_items.bind fun _ => .pure _
  · exact quiet_expr.bind fun _ => .pure _

theorem quiet_argsFrom : Quiet names fun limit _ => argsFrom limit limit #[] := by
  refine Quiet.loop (fun args limit rounds => argsFrom limit rounds args) ?_ #[]
  intro args s hs ih
  simp only [argsFrom]
  refine (quiet_arg s hs).bind fun item t ht => (settles_peek_since ht).bind ?_
  rintro token u ⟨hu, hface⟩
  split
  · exact .turn hu hface (by simp) (ih _)
  · exact (quiet_eat.bind fun _ => .pure _).since hu
  · exact (Quiet.throw rfl).since hu

theorem quiet_args : Quiet names fun limit _ => args limit := by
  unfold args
  refine quiet_peek.bind fun token => ?_
  split
  · exact .pure _
  refine quiet_eat.bind fun _ => quiet_peek.bind fun token => ?_
  split
  · exact quiet_eat.bind fun _ => .pure _
  · exact quiet_argsFrom

/-! ## Statements -/

theorem quiet_keyword (name : String) (word : Keyword) :
    Quiet names fun limit _ => keyword limit name word := by
  unfold keyword
  cases word with
  | org | align | assertion => exact quiet_expr.bind fun _ => .pure _
  | push | pop => exact .pure _
  | data | pointers => exact (quiet_data _).bind fun _ => .pure _
  | fill | protect => exact quiet_expr.bind fun _ => quiet_optionalExpr.bind fun _ => .pure _
  | report severity =>
    refine quiet_peek.bind fun token => ?_
    split
    · exact quiet_eat.bind fun _ => .pure _
    · exact .throw rfl

theorem quiet_skipLine : Quiet names fun _ _ => skipLine := fun s hs =>
  .of_meets (after_of_consumes hs (s.supply.consumes_skipLine hs.supply.toPlain))

theorem quiet_invoke (place : Position) (name : String) :
    Quiet names fun limit _ => invoke (within env limit) place name := by
  have hregistry (limit : Nat) : (within env limit).registry = env.registry := rfl
  have hgame (limit : Nat) : (within env limit).game = env.game := rfl
  unfold invoke
  simp only [hregistry, hgame]
  split
  · exact (quiet_note .error place _).bind fun _ => quiet_skipLine
  · refine quiet_args.bind fun args => quiet_lineEnd.bind fun _ => ?_
    split
    · exact quiet_emit place _
    · exact quiet_note .error place _

theorem led_named (place : Position) (name : String) :
    Led names fun limit _ => named (within env limit) place name := by
  unfold named
  refine led_eat.bind fun _ => ?_
  split
  · exact (quiet_keyword name _).bind fun _ => quiet_lineEnd.bind fun _ => quiet_emit place _
  · refine quiet_peek.bind fun token => ?_
    split
    · exact quiet_eat.bind fun _ => quiet_emit place _
    · exact quiet_eat.bind fun _ => quiet_expr.bind fun _ => quiet_lineEnd.bind fun _ => quiet_emit place _
    · exact quiet_invoke env place name

/-- After a fault there are lighter sources, or a token that skipping the line drops. -/
def Halted (names : List String) (s t : ParseState) : Prop :=
  Sooner names s t ∨ After names s t ∧ ∃ token, token ≠ .fileEnd ∧ Faces t token

theorem Halted.note (h : Halted names s t) (severity : Severity) (place : Position) (text : String) :
    Halted names s (t.note severity place text) := by
  rcases h with ⟨horderly, hweight⟩ | ⟨⟨horderly, hweight⟩, hface⟩
  · exact .inl ⟨⟨horderly.supply, horderly.macros⟩, hweight⟩
  · exact .inr ⟨⟨⟨horderly.supply, horderly.macros⟩, hweight⟩, hface⟩

/-- Skipping a line drops the token that is next. -/
theorem Halted.skipLine (h : Halted names s t) : Sooner names s t.skipLine := by
  rcases h with hsooner | ⟨hafter, token, htoken, hface⟩
  · have horderly := hsooner.orderly
    exact hsooner.trans_after
      (after_of_consumes horderly (t.supply.consumes_skipLine horderly.supply.toPlain))
  · have horderly := hafter.orderly
    have hplain := horderly.supply.toPlain
    have hend : t.supply.peek.1 ≠ .ok .fileEnd := by
      rw [hface]
      simpa using htoken
    have hrest : t.supply.peek.2.eat.Consumes t.supply.skipLine := by
      have hplain' := hplain.consumes_next.plain hplain
      rw [Supply.skipLine, dif_neg (by simpa using hend)]
      split
      · exact .refl
      · exact Supply.consumes_skipLine _ hplain'
    exact hafter.trans_sooner (sooner_of_consumes horderly (t.supply.consumes_skipLine hplain)
      (drop_of_consumes hrest (Supply.weight_eat_peek hplain hend)))

/-- A statement leaves lighter sources, but at the end of the script. -/
theorem settles_statement (hs : s.Orderly names) : Settles (fun limit _ => statement (within env limit)) s
    (fun more t => After names s t ∧ (more = true → Sooner names s t)) (Halted names s) := by
  have htrue {p : Nat → Nat → Parsing Unit} {t : ParseState} {token : Token} (ht : After names s t)
      (hface : Faces t token) (htoken : token ≠ .fileEnd)
      (hp : Settles p t (fun _ => Sooner names t) (Stray names t)) :
      Settles (fun limit rounds => p limit rounds >>= fun _ => pure true) t
        (fun more t => After names s t ∧ (more = true → Sooner names s t)) (Halted names s) := by
    refine (hp.imp (fun _ _ => ht.trans_sooner) ?_).bind fun _ u hu => .of_meets ⟨hu.after, fun _ => hu⟩
    rintro u (hu | rfl)
    · exact .inl (ht.trans_sooner hu)
    · exact .inr ⟨ht, token, htoken, hface⟩
  unfold statement
  refine ((settles_peek hs).imp (fun _ _ h => h) fun _ => .inl).bind ?_
  rintro token t ⟨ht, hface⟩
  refine .bind (Q := fun _ u => t = u) (.of_meets rfl) ?_
  rintro place _ rfl
  dsimp only
  split
  · exact .of_meets ⟨ht, by simp⟩
  · exact htrue ht hface (by simp) (led_eat.stray ht.orderly hface (by simp))
  · exact htrue ht hface (by simp) (settles_directive env place ht.orderly hface)
  · exact htrue ht hface (by simp) ((led_named env place _).stray ht.orderly hface (by simp))
  · -- The token stays where it is, for the line to be skipped.
    rename_i hend _ _ _
    exact .of_meets ⟨rfl, .inr ⟨ht, token, hend, hface⟩⟩

/-- A turn of the loop of statements ends it, or leaves lighter sources. -/
theorem exists_turn (hs : s.Orderly names) : ∃ bound t,
    (Sooner names s t ∧ ∀ limit ≥ bound, turn (within env limit) s = .on t) ∨
      After names s t ∧ ∀ limit ≥ bound, turn (within env limit) s = .done t := by
  obtain ⟨bound, result, hsame, hmeets⟩ := settles_statement env hs
  replace hsame : ∀ limit ≥ bound, statement (within env limit) s = result :=
    fun limit hlimit => hsame limit hlimit bound (le_refl _)
  cases result with
  | ok more t =>
    refine ⟨bound, t, ?_⟩
    cases more with
    | true =>
      refine .inl ⟨hmeets.2 rfl, fun limit hlimit => ?_⟩
      rw [turn, hsame limit hlimit]
    | false =>
      refine .inr ⟨hmeets.1, fun limit hlimit => ?_⟩
      rw [turn, hsame limit hlimit]
  | error fault t =>
    obtain ⟨hfault, hhalted⟩ := hmeets
    refine ⟨bound, _, .inl ⟨(hhalted.note .error t.supply.position fault.message).skipLine, ?_⟩⟩
    intro limit hlimit
    rw [turn, hsame limit hlimit]
    exact if_neg (by simp [hfault])

/-- The loop of statements comes to the end of the script. -/
theorem settles_statements (hs : s.Orderly names) :
    Settles (fun limit rounds => statements (within env limit) rounds) s (fun _ => After names s)
      fun _ => False := by
  refine Settles.loop (fun (_ : Unit) limit rounds => statements (within env limit) rounds)
    (Q := fun s _ => After names s) (E := fun _ _ => False) ?_ () s hs
  intro _ s hs ih
  obtain ⟨bound, t, ⟨ht, hturn⟩ | ⟨ht, hturn⟩⟩ := exists_turn env hs
  · obtain ⟨bound', result, hsame, hmeets⟩ := (ih () t ht).imp (fun _ _ => ht.after.trans)
      fun _ h => h
    refine ⟨max bound bound', result, ?_, hmeets⟩
    intro limit hlimit rounds hrounds
    show statements (within env limit) (rounds + 1) s = result
    rw [statements_succ, hturn limit (le_of_max_le_left hlimit)]
    exact hsame limit (le_of_max_le_right hlimit) rounds (le_of_max_le_right hrounds)
  · refine ⟨bound, .ok () t, ?_, ht⟩
    intro limit hlimit rounds _
    show statements (within env limit) (rounds + 1) s = .ok () t
    rw [statements_succ, hturn limit hlimit]

theorem settles_script (hs : s.Orderly names) :
    Settles (fun limit _ => script (within env limit)) s (fun _ _ => True) fun _ => False := by
  unfold script
  refine (settles_statements env hs).diag.bind fun _ t _ => .get_bind ?_
  split
  · exact .of_meets trivial
  · exact .of_meets trivial

end Parsing

/-! ## Scripts -/

namespace TextStream

/-- All tokens of a text but its end are among its rounds. -/
theorem ahead_subset_roundsWithin {limit : Nat} {s : TextStream} (h : s.remaining < limit) :
    s.ahead ⊆ s.roundsWithin limit := by
  induction limit generalizing s with
  | zero => simp at h
  | succ limit ih =>
    by_cases hend : s.peek.1 = .ok .fileEnd
    · rw [ahead_of_fileEnd hend]
      exact List.nil_subset _
    · have hlt := s.remaining_eat_lt hend
      rw [ahead_of_ne hend, roundsWithin]
      cases hpeek : s.peek with
      | mk outcome next =>
        rw [hpeek] at hend hlt
        dsimp only at hlt ⊢
        split
        · exact absurd rfl hend
        · exact List.cons_subset_cons _ (ih (by omega))

end TextStream

/-- The name that a token is. -/
def Token.name? : Token → Option String
  | .name written => some written
  | _ => none

namespace Script

variable {α : Type} (script : Script) (defines : List (String × Int64))

/-- The rounds of the text of a script. -/
def rounds : List TextStream.Round := (TextStream.ofBytes script.name script.content).rounds

/-- The names in a script, and those that are defined in advance. -/
def allNames : List String :=
  script.rounds.filterMap (fun round => round.outcome.toOption.bind Token.name?) ++
    defines.map Prod.fst

variable {script defines}

theorem known_allNames (h : ∀ round ∈ script.rounds, round.outcome ≠ .ok (.directive .includeScript))
    {round : TextStream.Round} (hround : round ∈ script.rounds) {token : Token}
    (htoken : round.outcome = .ok token) : token.Known (script.allNames defines) := by
  refine ⟨?_, ?_⟩
  · rintro name rfl
    refine List.mem_append_left _ (List.mem_filterMap.2 ⟨round, hround, ?_⟩)
    rw [htoken]
    rfl
  · rintro rfl
    exact h round hround htoken

/-- What is found was put. -/
theorem mem_of_find?_ofList {pairs : List (String × α)} {name : String} {a : α}
    (h : (Dictionary.ofList pairs).find? name = some a) : (name, a) ∈ pairs := by
  have hput (d : Dictionary α)
      (hfind : (pairs.foldl (fun d pair => d.put pair.1 pair.2) d).find? name = some a) :
      d.find? name = some a ∨ (name, a) ∈ pairs := by
    clear h
    induction pairs generalizing d with
    | nil => exact .inl hfind
    | cons pair pairs ih =>
      rcases ih _ hfind with hd | hmem
      · rw [Dictionary.find?_put] at hd
        split at hd
        · rename_i heq
          have hpair : (name, a) = pair := Prod.ext heq (Option.some.inj hd).symm
          exact .inr (hpair ▸ (.head _))
        · exact .inl hd
      · exact .inr (.tail _ hmem)
  rcases hput .empty h with hempty | hmem
  · cases hempty
  · exact hmem

theorem find?_predefined {name : String} {m : Macro} (h : (predefined defines).find? name = some m) :
    name ∈ defines.map Prod.fst ∧ ∃ value, m = numberMacro name value := by
  obtain ⟨⟨defined, value⟩, hdefine, hpair⟩ := List.mem_map.1 (mem_of_find?_ofList h)
  obtain ⟨rfl, rfl⟩ := Prod.mk.inj hpair
  exact ⟨List.mem_map_of_mem hdefine, value, rfl⟩

theorem orderly_start (defines : List (String × Int64))
    (h : ∀ round ∈ script.rounds, round.outcome ≠ .ok (.directive .includeScript)) :
    (script.start defines).Orderly (script.allNames defines) := by
  refine ⟨⟨⟨⟨rfl, by simp [start]⟩, ⟨by simp [TextStream.ofBytes], ?_⟩, by simp [start]⟩, ?_, ?_, ?_⟩, ?_⟩
  · intro round hround token htoken
    have hahead := TextStream.ahead_subset_roundsWithin (Nat.lt_succ_self _) hround
    exact known_allNames h hahead htoken
  · simp [start, Supply.uses]
  · simp [start, Supply.uses]
  · simp [start]
  · intro name m hm
    obtain ⟨hname, value, rfl⟩ := find?_predefined hm
    refine ⟨rfl, List.mem_append_right _ hname, ?_⟩
    intro piece hpiece token htoken
    obtain rfl := List.mem_singleton.1 hpiece
    obtain rfl := Piece.token.inj htoken
    simp [Token.Known]

/-- A script that includes no other script is read to its end, whatever macros it defines, redefines
    and undefines and however they use each other: from some limit on the loops are never given up, and
    the limit does not matter. -/
theorem parse_settles (script : Script) (env : Environment) (defines : List (String × Int64))
    (hinclude : ∀ round ∈ script.rounds, round.outcome ≠ .ok (.directive .includeScript)) :
    ∃ limit program diagnostics, ∀ n ≥ limit,
      script.parse { env with limit := n } defines = ⟨.ok program, diagnostics⟩ := by
  obtain ⟨bound, result, hsame, hmeets⟩ :=
    Parsing.settles_script env (orderly_start defines hinclude)
  cases result with
  | error fault final => exact hmeets.2.elim
  | ok _ final =>
    refine ⟨bound, final.statements.toList, final.diagnostics.toList, ?_⟩
    intro n hn
    have hscript : Parsing.script { env with limit := n } (script.start defines) = .ok () final :=
      hsame n hn bound (le_refl _)
    rw [parse, hscript]

/-- Macros that use each other and themselves, one of which takes its arguments from behind the macro
    that named it, and one that is a directive. -/
theorem parse_settles_tangle :
    let tangle : Script := ⟨"tangle", Utf8.encode <|
      "#define A B A\n#define B A B\n#define F(x) G(x) x\n#define G(x) F(x) H\n#define H F\n" ++
      "#define D #undef A\nBYTE A\nH (H (1))\nD\n#define A A\nBYTE A\n", none⟩
    (∀ round ∈ tangle.rounds, round.outcome ≠ .ok (.directive .includeScript)) ∧
      ∃ limit program diagnostics, ∀ n ≥ limit,
        tangle.parse { ({} : Environment) with limit := n } [("A", 1)] = ⟨.ok program, diagnostics⟩ := by
  intro tangle
  have hinclude : ∀ round ∈ tangle.rounds, round.outcome ≠ .ok (.directive .includeScript) := by
    decide +kernel
  exact ⟨hinclude, parse_settles tangle {} [("A", 1)] hinclude⟩

end Script

end CartScript
