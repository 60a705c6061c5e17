import CartScript.Proofs.Script.Directives

/-!
# Turn after turn

Reading a script is a loop: one turn reads a statement, and notes what is wrong with it.  `Ends` says
that the loop comes to its end after some turns, `Reaches` that it gets to a state on the way.
-/

namespace CartScript

/-- Whether two computations end alike, in the same state. -/
instance decidableEqResult {ε σ α : Type} [DecidableEq ε] [DecidableEq σ] [DecidableEq α] :
    DecidableEq (EStateM.Result ε σ α)
  | .ok a s, .ok b t => decidable_of_iff (a = b ∧ s = t) (by simp)
  | .error e s, .error f t => decidable_of_iff (e = f ∧ s = t) (by simp)
  | .ok _ _, .error _ _ => isFalse (by simp)
  | .error _ _, .ok _ _ => isFalse (by simp)

namespace Parsing

/-- The state in which a computation ends. -/
def finalState {α : Type} : EStateM.Result ParseFault ParseState α → ParseState
  | .ok _ final => final
  | .error _ final => final

/-- What a turn leads to. -/
inductive Turn where
  | on (next : ParseState)
  | done (final : ParseState)
  | stopped (fault : ParseFault) (final : ParseState)
  deriving DecidableEq

/-- The state that a turn leads to. -/
def Turn.state : Turn → ParseState
  | .on next => next
  | .done final => final
  | .stopped _ final => final

/-- One turn: a statement is read; a fault is noted, and the rest of its line skipped unless it ends
    the reading. -/
def turn (env : Environment) (s : ParseState) : Turn :=
  match statement env s with
  | .ok true next => .on next
  | .ok false final => .done final
  | .error fault next =>
    let noted := next.note .error next.supply.position fault.message
    if isFatal fault then .stopped fault noted else .on noted.skipLine

/-- `statements` goes in turns. -/
theorem statements_succ (env : Environment) (rounds : Nat) (s : ParseState) :
    statements env (rounds + 1) s =
      match turn env s with
      | .on next => statements env rounds next
      | .done final => .ok () final
      | .stopped fault final => .error fault final := by
  simp only [statements, turn]
  cases statement env s with
  | ok more next =>
    cases more with
    | true | false => rfl
  | error fault next =>
    dsimp only
    split
    · rfl
    · rfl

variable {r : EStateM.Result ParseFault ParseState Unit} {F X : ParseState → ParseState → Prop}
  {limit m rounds : Nat} {states : List ParseState} {env' : Environment} {supply : Supply}
  {s : ParseState}

theorem peek_of_plain {token : Token} (hlimit : limit ≠ 0) (h : s.supply.peek = (.ok token, supply))
    (htoken : ∀ name, token ≠ .name name) : peek limit s = .ok token { s with supply } := by
  obtain ⟨limit, rfl⟩ := Nat.exists_eq_succ_of_ne_zero hlimit
  show EStateM.bind peekRaw _ s = _
  simp only [EStateM.bind, peekRaw, h]
  cases token with
  | name name => exact absurd rfl (htoken name)
  | _ => rfl

/-- The end of a line is a turn of its own where a statement could start. -/
theorem turn_of_lineEnd {env : Environment} (hlimit : env.limit ≠ 0)
    (h : s.supply.peek = (.ok .lineEnd, supply)) :
    turn env s = .on { s with supply := supply.eat } := by
  have hstatement : statement env s = .ok true { s with supply := supply.eat } := by
    show EStateM.bind (peek env.limit) _ s = _
    rw [EStateM.bind, peek_of_plain hlimit h (by simp)]
    rfl
  rw [turn, hstatement]

/-- The loop ends after some turns. -/
inductive Ends (env : Environment) :
    Nat → ParseState → EStateM.Result ParseFault ParseState Unit → Prop
  | done {s final : ParseState} (h : turn env s = .done final) : Ends env 1 s (.ok () final)
  | stopped {s final : ParseState} {fault : ParseFault} (h : turn env s = .stopped fault final) :
      Ends env 1 s (.error fault final)
  | on {s next : ParseState} {n : Nat} {r : EStateM.Result ParseFault ParseState Unit}
      (h : turn env s = .on next) (hnext : Ends env n next r) : Ends env (n + 1) s r

/-- The loop gets from one state to another in some turns. -/
inductive Reaches (env : Environment) : Nat → ParseState → ParseState → Prop
  | refl (s : ParseState) : Reaches env 0 s s
  | on {s next t : ParseState} {n : Nat} (h : turn env s = .on next) (hnext : Reaches env n next t) :
      Reaches env (n + 1) s t

variable {env : Environment} {s t : ParseState} {n : Nat}

theorem statements_of_ends (h : Ends env n s r) (hle : n ≤ rounds) :
    statements env rounds s = r := by
  induction h generalizing rounds with
  | done h | stopped h =>
    obtain ⟨rounds, rfl⟩ := Nat.exists_eq_add_of_le' hle
    rw [statements_succ, h]
  | on h _ ih =>
    obtain ⟨rounds, rfl⟩ := Nat.exists_eq_add_of_le' (Nat.le_of_add_left_le hle)
    rw [statements_succ, h]
    exact ih (Nat.le_of_add_le_add_right hle)

/-- The loop has come to its end if it was not given up. -/
theorem ends_of_statements (h : ∀ final, statements env rounds s ≠ .error .endless final) :
    ∃ n ≤ rounds, Ends env n s (statements env rounds s) := by
  induction rounds generalizing s with
  | zero => exact absurd rfl (h s)
  | succ rounds ih =>
    rw [statements_succ] at h ⊢
    cases hturn : turn env s with
    | on next =>
      rw [hturn] at h
      obtain ⟨n, hn, hends⟩ := ih h
      exact ⟨n + 1, Nat.succ_le_succ hn, .on hturn hends⟩
    | done final => exact ⟨1, Nat.succ_le_succ (Nat.zero_le _), .done hturn⟩
    | stopped fault final => exact ⟨1, Nat.succ_le_succ (Nat.zero_le _), .stopped hturn⟩

theorem Reaches.trans {u : ParseState} (h : Reaches env n s t) (h' : Reaches env m t u) :
    Reaches env (n + m) s u := by
  induction h with
  | refl => simpa using h'
  | on hturn _ ih =>
    rw [Nat.add_right_comm]
    exact .on hturn (ih h')

/-- What the loop ends with from a state on the way. -/
theorem Reaches.ends (h : Reaches env n s t) (h' : Ends env m t r) : Ends env (n + m) s r := by
  induction h with
  | refl => simpa using h'
  | on hturn _ ih =>
    rw [Nat.add_right_comm]
    exact .on hturn (ih h')

/-- What holds at the start and is kept by each turn holds on the way. -/
theorem Reaches.invariant {P : ParseState → Prop} (h : Reaches env n s t) (hs : P s)
    (hstep : ∀ u next, P u → turn env u = .on next → P next) : P t := by
  induction h with
  | refl => exact hs
  | on hturn _ ih => exact ih (hstep _ _ hs hturn)

/-- The states of a loop that ends within some turns. -/
def states? (env : Environment) : (limit : Nat) → ParseState → Option (List ParseState)
  | 0, _ => none
  | limit + 1, s =>
    match turn env s with
    | .on next => (states? env limit next).map (s :: ·)
    | _ => some [s]

theorem Reaches.mem_states? (h : Reaches env n s t) (hstates : states? env limit s = some states) :
    t ∈ states := by
  induction h generalizing limit states with
  | refl s =>
    cases limit with
    | zero => cases hstates
    | succ limit =>
      rw [states?] at hstates
      split at hstates
      · obtain ⟨rest, _, rfl⟩ := Option.map_eq_some_iff.1 hstates
        exact .head _
      · obtain rfl := Option.some.inj hstates
        exact .head _
  | on hturn _ ih =>
    cases limit with
    | zero => cases hstates
    | succ limit =>
      rw [states?, hturn] at hstates
      obtain ⟨rest, hrest, rfl⟩ := Option.map_eq_some_iff.1 hstates
      exact .tail _ (ih hrest)

theorem reaches_of_mem_states? (hstates : states? env limit s = some states) (ht : t ∈ states) :
    ∃ n, Reaches env n s t := by
  induction limit generalizing s states with
  | zero => cases hstates
  | succ limit ih =>
    rw [states?] at hstates
    split at hstates
    · rename_i next hturn
      obtain ⟨rest, hrest, rfl⟩ := Option.map_eq_some_iff.1 hstates
      rcases List.mem_cons.1 ht with rfl | ht
      · exact ⟨0, .refl _⟩
      · obtain ⟨n, hreach⟩ := ih hrest ht
        exact ⟨n + 1, .on hturn hreach⟩
    · obtain rfl := Option.some.inj hstates
      obtain rfl := List.mem_singleton.1 ht
      exact ⟨0, .refl _⟩

/-! ## Two scripts -/

/-- Turns that lead to related states. -/
inductive TurnRel (X F : ParseState → ParseState → Prop) : Turn → Turn → Prop
  | on {s t : ParseState} (h : X s t) : TurnRel X F (.on s) (.on t)
  | done {s t : ParseState} (h : F s t) : TurnRel X F (.done s) (.done t)
  | stopped {fault : ParseFault} {s t : ParseState} (h : F s t) :
      TurnRel X F (.stopped fault s) (.stopped fault t)

theorem TurnRel.imp {Y : ParseState → ParseState → Prop} {a b : Turn} (h : TurnRel X F a b)
    (hXY : ∀ s t, a = .on s → X s t → Y s t) : TurnRel Y F a b := by
  cases h with
  | on h => exact .on (hXY _ _ rfl h)
  | done h => exact .done h
  | stopped h => exact .stopped h

/-- Ends that are related. -/
inductive EndRel (F : ParseState → ParseState → Prop) :
    EStateM.Result ParseFault ParseState Unit → EStateM.Result ParseFault ParseState Unit → Prop
  | ok {s t : ParseState} (h : F s t) : EndRel F (.ok () s) (.ok () t)
  | error {fault : ParseFault} {s t : ParseState} (h : F s t) :
      EndRel F (.error fault s) (.error fault t)

/-- A turn is taken by the left side alone, or by both. -/
abbrev Steps (X F : ParseState → ParseState → Prop) (env env' : Environment) (s t : ParseState) : Prop :=
  (∃ next, turn env s = .on next ∧ X next t) ∨ TurnRel X F (turn env s) (turn env' t)

/-- Two scripts of which the right one is read turn by turn as the left one, which may take turns of
    its own. -/
theorem Ends.simulate {start : ParseState}
    (hstep : ∀ n s t, Reaches env n start s → X s t → Steps X F env env' s t) (h : Ends env n s r)
    (hs : Reaches env m start s) (hst : X s t) : ∃ m ≤ n, ∃ r', Ends env' m t r' ∧ EndRel F r r' := by
  induction h generalizing t m with
  | @done s final hturn =>
    rcases hstep m s t hs hst with ⟨next, hnext, _⟩ | hrel
    · cases hturn.symm.trans hnext
    · generalize ht : turn env' t = b at hrel
      rw [hturn] at hrel
      cases hrel with
      | done h => exact ⟨1, Nat.le_refl _, _, .done ht, .ok h⟩
  | @stopped s final fault hturn =>
    rcases hstep m s t hs hst with ⟨next, hnext, _⟩ | hrel
    · cases hturn.symm.trans hnext
    · generalize ht : turn env' t = b at hrel
      rw [hturn] at hrel
      cases hrel with
      | stopped h => exact ⟨1, Nat.le_refl _, _, .stopped ht, .error h⟩
  | @on s next n r hturn _ ih =>
    have hreach := hs.trans (.on hturn (.refl next))
    rcases hstep m s t hs hst with ⟨next', hnext, hrel⟩ | hrel
    · cases hturn.symm.trans hnext
      obtain ⟨m, hm, r', hends, hr⟩ := ih hreach hrel
      exact ⟨m, Nat.le_succ_of_le hm, r', hends, hr⟩
    · generalize ht : turn env' t = b at hrel
      rw [hturn] at hrel
      cases hrel with
      | on h =>
        obtain ⟨m, hm, r', hends, hr⟩ := ih hreach h
        exact ⟨m + 1, Nat.succ_le_succ hm, r', .on ht hends, hr⟩

theorem not_leaves {α : Type} (r : EStateM.Result ParseFault ParseState α) :
    ¬Leaves (fun _ => False) r := by
  cases r with
  | ok a s | error fault s => exact id

/-- A turn after which the left side is lost. -/
theorem lost_of_leaves {Lost : Supply → Prop} (h : Leaves Lost (statement env s)) {next : ParseState}
    (hturn : turn env s = .on next) : Lost next.supply := by
  unfold turn at hturn
  cases hs : statement env s with
  | ok more final =>
    rw [hs] at h hturn
    cases more with
    | true =>
      obtain rfl := Turn.on.inj hturn
      exact h
    | false => cases hturn
  | error fault final =>
    rw [hs] at h hturn
    dsimp only at hturn
    split at hturn
    · cases hturn
    · obtain rfl := Turn.on.inj hturn
      exact h

/-- A turn in step. -/
theorem turnRel_of_alike {B : Beside}
    (h : B.Alike (fun _ => B.Along B.Between) (statement env s) (statement env' t))
    (hlate : ∀ fault final, statement env' t = .error fault final → ¬B.Late final.supply) :
    TurnRel (B.Along B.Between) B.Told (turn env s) (turn env' t) := by
  unfold turn
  generalize statement env s = r, statement env' t = r' at h hlate ⊢
  cases h with
  | @ok more final final' h =>
    cases more with
    | true => exact .on h
    | false => exact .done (h.weaken fun _ => trivial)
  | @error fault final final' h =>
    -- Both note the fault, and go on after the line.
    have hnoted := (agree_note h.supply.1 .error fault.message final final' h).get
    dsimp only
    split
    · exact .stopped (hnoted.weaken fun _ => trivial)
    · exact .on { hnoted with supply := h.supply.2.resolve_left (hlate fault final' rfl) }

/-- A turn of two scripts on which directives agree that reach over the end of the line. -/
theorem Crosses.turnRel {B : Beside} {tree : FileTree} (hcross : Crosses B (fun _ => False) env tree)
    (h : B.Reads s t)
    (hapt : ∀ d s', peek env.limit s = .ok (.directive d) s' → B.Apt d s'.supply)
    (hlate : ∀ fault final, statement { env with tree } t = .error fault final →
      ¬B.Late final.supply) :
    TurnRel (B.Along B.Between) B.Told (turn env s) (turn { env with tree } t) :=
  turnRel_of_alike ((alikeOr_statement hcross h hapt).resolve_left (not_leaves _)) hlate

end Parsing

/-! ## Whole scripts -/

/-- What came of two scripts is the same. -/
structure Parsed.Alike (same : Located Statement → Located Statement → Prop) (a b : Parsed) : Prop where
  outcome : match a.outcome, b.outcome with
    | .ok program, .ok program' => List.Forall₂ same program program'
    | .error fault, .error fault' => fault = fault'
    | _, _ => False
  diagnostics : a.diagnostics.map Diagnostic.said = b.diagnostics.map Diagnostic.said

namespace Script

open Parsing

/-- The names defined in advance stand for the same numbers everywhere. -/
theorem predefined_near {near : Position → Position → Prop} (hnear : ∀ p, near p p)
    (defines : List (String × Int64)) :
    (predefined defines).Near (Macro.Near near) (predefined defines) := by
  have hput (pairs : List (String × Macro)) (hpairs : ∀ pair ∈ pairs, pair.2.Near near pair.2)
      (d : Dictionary Macro) (hd : d.Near (Macro.Near near) d) :
      (pairs.foldl (fun d pair => d.put pair.1 pair.2) d).Near (Macro.Near near)
        (pairs.foldl (fun d pair => d.put pair.1 pair.2) d) := by
    induction pairs generalizing d with
    | nil => exact hd
    | cons pair pairs ih =>
      obtain ⟨hpair, hrest⟩ := List.forall_mem_cons.1 hpairs
      exact ih hrest _ (hd.put pair.1 hpair)
  refine hput _ (fun pair hpair => ?_) _ .nil
  obtain ⟨⟨name, value⟩, _, rfl⟩ := List.mem_map.1 hpair
  refine ⟨rfl, rfl, .cons ⟨hnear _, rfl⟩ .nil, fun piece hpiece token htoken => ?_⟩
  obtain rfl := List.mem_singleton.1 hpiece
  obtain rfl := Piece.token.inj htoken
  exact ⟨by simp, by simp⟩

/-- Reading a whole script is the loop and a look at the open blocks. -/
theorem script_eq (env : Environment) (s : ParseState) :
    Parsing.script env s =
      match statements env env.limit s with
      | .ok _ final =>
        .ok () (if final.openBlocks ≠ 0 then
          final.note .error final.supply.position "missing #endif" else final)
      | .error fault final => .error fault final := by
  show EStateM.bind (statements env env.limit) _ s = _
  unfold EStateM.bind
  cases statements env env.limit s with
  | ok u final =>
    by_cases h : final.openBlocks ≠ 0
    · simp only [if_pos h]
      show (if final.openBlocks ≠ 0 then _ else _ : Parsing Unit) final = _
      rw [if_pos h]
      rfl
    · simp only [if_neg h]
      show (if final.openBlocks ≠ 0 then _ else _ : Parsing Unit) final = _
      rw [if_neg h]
      rfl
  | error fault final => rfl

variable {defines : List (String × Int64)} {env : Environment} {script : Script}

theorem limit_ne_zero (hends : (script.parse env defines).outcome ≠ .error .endless) :
    env.limit ≠ 0 := by
  intro hlimit
  apply hends
  rw [parse, script_eq, hlimit]
  rfl

/-- What comes of a script of which the reading ends, and of one that is read turn by turn as it. -/
theorem parse_alike {env' : Environment} (hlimit : env'.limit = env.limit) {script' : Script}
    {X : ParseState → ParseState → Prop} {A : Likeness}
    (hstep : ∀ n s t, Reaches env n (script.start defines) s → X s t →
      Steps X A.account.Told env env' s t)
    (hstart : X (script.start defines) (script'.start defines))
    (hends : (script.parse env defines).outcome ≠ .error .endless) :
    Parsed.Alike A.same (script.parse env defines) (script'.parse env' defines) := by
  have hended : ∀ final, statements env env.limit (script.start defines) ≠ .error .endless final := by
    intro final hfinal
    apply hends
    rw [parse, script_eq, hfinal]
  obtain ⟨n, hn, hleft⟩ := ends_of_statements hended
  obtain ⟨m, hm, r, hright, hrel⟩ := hleft.simulate hstep (.refl _) hstart
  have hstatements := statements_of_ends hright (hlimit ▸ Nat.le_trans hm hn)
  unfold parse
  rw [script_eq, script_eq, hstatements]
  have hsaid {s t : ParseState} (h : A.account.Told s t) :
      s.diagnostics.toList.map Diagnostic.said = t.diagnostics.toList.map Diagnostic.said := by
    rw [← List.forall₂_eq_eq_eq, List.forall₂_map_left_iff, List.forall₂_map_right_iff]
    exact h.diagnostics
  generalize statements env env.limit (script.start defines) = r' at hrel ⊢
  cases hrel with
  | ok htold =>
    dsimp only
    rw [htold.level rfl]
    split
    · refine ⟨htold.statements, ?_⟩
      simp only [ParseState.note, Array.toList_push, List.map_append, hsaid htold]
      rfl
    · exact ⟨htold.statements, hsaid htold⟩
  | error htold => exact ⟨rfl, hsaid htold⟩

end Script

end CartScript
