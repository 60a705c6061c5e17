import CartScript.Proofs.Script.Lockstep
import CartScript.Proofs.Script.Reading
import CartScript.Proofs.Script.Weight

/-!
# The tokens of a line after its macros are replaced

A macro without parameters stands for the tokens of its body.  `replaced` says what comes of a line:
the name of a macro is replaced by the body, in which the same is done, except for the macros in whose
uses it stands.

`Reads` says how the sources go on in single steps: a token is given, or the name of a macro makes way
for its use.  A use that has come to its end makes no difference to the next step, so the steps through
a use and those behind it fit together.
-/

namespace CartScript

/-! ## What comes of a line -/

/-- The tokens that a macro without parameters stands for. -/
def Macro.tokens (m : Macro) : List Token := (substitute m.body []).map Located.value

/-- How many names of macros are not among the given ones. -/
def unused (macros : Dictionary Macro) (active : List String) : Nat :=
  ((macros.entries.map Prod.fst).filter fun name => name ∉ active).length

theorem unused_cons_lt {macros : Dictionary Macro} {active : List String} {name : String} {m : Macro}
    (hm : macros.find? name = some m) (hname : name ∉ active) :
    unused macros (name :: active) < unused macros active := by
  obtain ⟨before, after, hentries, _⟩ := List.lookup_eq_some_iff.1 hm
  have hmem : name ∈ (macros.entries.map Prod.fst).filter fun name => name ∉ active := by
    simp [hentries, hname]
  have hfilter : ((macros.entries.map Prod.fst).filter fun n => n ∉ name :: active) =
      ((macros.entries.map Prod.fst).filter fun n => n ∉ active).filter fun n => n ≠ name := by
    simp [List.filter_filter]
  rw [unused, hfilter]
  exact List.length_filter_lt_length_iff_exists.2 ⟨name, hmem, by simp⟩

/-- Tokens with the uses of macros replaced, in the uses of some macros.  Those are not replaced
    again. -/
def replaced (macros : Dictionary Macro) (active : List String) : List Token → List Token
  | [] => []
  | .name name :: tokens =>
    if _hname : name ∈ active then .name name :: replaced macros active tokens
    else match _hm : macros.find? name with
      | some m => replaced macros (name :: active) m.tokens ++ replaced macros active tokens
      | none => .name name :: replaced macros active tokens
  | token :: tokens => token :: replaced macros active tokens
termination_by tokens => (unused macros active, tokens.length)
decreasing_by
  · exact Prod.Lex.right _ (Nat.lt_succ_self _)
  · exact Prod.Lex.left _ _ (unused_cons_lt _hm _hname)
  · exact Prod.Lex.right _ (Nat.lt_succ_self _)
  · exact Prod.Lex.right _ (Nat.lt_succ_self _)
  · exact Prod.Lex.right _ (Nat.lt_succ_self _)

section Replaced

variable (macros : Dictionary Macro) (active : List String)

@[simp]
theorem replaced_nil : replaced macros active [] = [] := by rw [replaced]

theorem replaced_cons_of_ne {token : Token} (h : ∀ name, token ≠ .name name) (tokens : List Token) :
    replaced macros active (token :: tokens) = token :: replaced macros active tokens := by
  cases token with
  | name name => exact absurd rfl (h name)
  | _ => simp [replaced]

theorem replaced_cons_name (name : String) (tokens : List Token) :
    replaced macros active (.name name :: tokens) =
      (if name ∈ active then [.name name]
        else (macros.find? name).elim [.name name] fun m =>
          replaced macros (name :: active) m.tokens) ++ replaced macros active tokens := by
  rw [replaced]
  split
  · rfl
  · split <;> simp [*]

theorem replaced_cons (token : Token) (tokens : List Token) :
    replaced macros active (token :: tokens) =
      replaced macros active [token] ++ replaced macros active tokens := by
  cases token with
  | name name => simp [replaced_cons_name]
  | _ => simp [replaced_cons_of_ne]

end Replaced

/-! ## Macros without parameters -/

/-- A macro without parameters as it is recorded under its name: it stands for tokens of a line. -/
structure Macro.ObjectLike (name : String) (m : Macro) : Prop where
  name : m.name = name
  params : m.params = none
  inline : ∀ token ∈ m.tokens, token.Inline

/-- A body that was read from the rest of a line has no end of the line in it. -/
theorem Supply.inline_of_body {params : Option (List String)} {s t : Supply}
    {body : Pieces} (h : s.body params #[] = (.ok body, t)) :
    BodyHas Token.Inline body := by
  have hread : BodyRead Token.Inline (fun _ => True) (s.body params #[]) :=
    bodyRead (fun _ _ => trivial) (fun _ _ _ _ hinline => hinline) params s trivial (by simp [BodyHas])
  rw [h] at hread
  exact hread.1

/-- What was recorded as arguments are tokens within a line. -/
theorem Supply.exists_recorded {s t : Supply} {expected : Nat} {args : List Pieces}
    (h : args = [] ∨ s.arguments Located.record expected #[] #[] 0 = (.ok args, t)) :
    ∃ recorded : List Argument, args = recorded.map (List.map Located.record) ∧
      ∀ arg ∈ recorded, ∀ item ∈ arg, item.value.Inline := by
  rcases h with rfl | h
  · exact ⟨[], rfl, by simp⟩
  · obtain ⟨tokens, htokens, houtcome⟩ := exists_of_arguments h
    have hread : ArgumentsRead Token.Inline (fun _ => True) (s.arguments id expected #[] #[] 0) :=
      argumentsRead (fun _ _ => trivial) (fun _ _ _ _ hinline => hinline) expected 0 s trivial (by simp)
        (by simp)
    rw [htokens] at hread
    cases tokens with
    | error fault => cases houtcome
    | ok tokens => exact ⟨tokens, Except.ok.inj houtcome, hread.1⟩

/-- The macro that a directive without parameters records. -/
theorem Macro.objectLike_of_body {s t : Supply} {body : Pieces} (name : String)
    (h : s.body none #[] = (.ok body, t)) :
    Macro.ObjectLike name { name, params := none, body } where
  name := rfl
  params := rfl
  inline := by
    intro token htoken
    obtain ⟨located, hlocated, rfl⟩ := List.mem_map.1 htoken
    exact forall_mem_substitute (Supply.inline_of_body h) (by simp) located hlocated

/-! ## The steps of reading -/

namespace Supply

variable {macros : Dictionary Macro} {active : List String} {s t u : Supply}

/-- The sources give tokens in a number of steps: in each of them a token of a line is given, or the
    name of a macro makes way for its use. -/
inductive Reads (macros : Dictionary Macro) : Supply → Nat → List Token → Supply → Prop
  | refl (s : Supply) : Reads macros s 0 [] s
  | give {s here t : Supply} {token : Token} {n : Nat} {tokens : List Token}
      (hpeek : s.peek = (.ok token, here)) (hinline : token.Inline)
      (hplain : Parsing.useOf? { supply := here, macros } token = none)
      (h : Reads macros here.eat n tokens t) : Reads macros s (n + 1) (token :: tokens) t
  | replace {s here t : Supply} {token : Token} {m : Macro} {n : Nat} {tokens : List Token}
      (hpeek : s.peek = (.ok token, here))
      (huse : Parsing.useOf? { supply := here, macros } token = some m) (hparams : m.params = none)
      (h : Reads macros (here.eat.push (.expansion m.name (.ofMacro m []))) n tokens t) :
      Reads macros s (n + 1) tokens t

/-- Only the next token matters to where the steps go on. -/
theorem Reads.trans {n m : Nat} {xs ys : List Token} {v : Supply} (h : Reads macros s n xs t)
    (hpeek : t.peek = u.peek) (h' : Reads macros u m ys v) :
    ∃ w, Reads macros s (n + m) (xs ++ ys) w ∧ w.peek = v.peek := by
  induction h with
  | refl s =>
    rw [Nat.zero_add, List.nil_append]
    cases h' with
    | refl => exact ⟨s, .refl s, hpeek⟩
    | give hgive hinline hplain h' => exact ⟨v, .give (hpeek.trans hgive) hinline hplain h', rfl⟩
    | replace huse hmacro hparams h' =>
      exact ⟨v, .replace (hpeek.trans huse) hmacro hparams h', rfl⟩
  | give hgive hinline hplain _ ih =>
    obtain ⟨w, hw, hend⟩ := ih hpeek
    rw [Nat.succ_add]
    exact ⟨w, .give hgive hinline hplain hw, hend⟩
  | replace huse hmacro hparams _ ih =>
    obtain ⟨w, hw, hend⟩ := ih hpeek
    rw [Nat.succ_add]
    exact ⟨w, .replace huse hmacro hparams hw, hend⟩

/-- Where a token was looked at in a line, and the macros in use are known, the token is replaced. -/
def ReplacesToken (macros : Dictionary Macro) (active : List String) : Prop :=
  ∀ (s here : Supply) (token : Token), s.peek = (.ok token, here) → token.Inline →
    here.expands = true → here.lineEnded = false → (∀ name, name ∈ active ↔ here.isUsing name = true) →
    ∃ n t, Reads macros s n (replaced macros active [token]) t ∧ t.peek = here.eat.peek

/-- The use of a macro gives what comes of its tokens, and then makes no difference any more. -/
theorem reads_expansion (htoken : ReplacesToken macros active) {tokens : List Token}
    (hinline : ∀ token ∈ tokens, token.Inline) (hline : u.lineEnded = false) (name : String)
    (hactive : ∀ other, other ∈ active ↔ other = name ∨ u.isUsing other = true) {e : Expansion}
    (he : e.tokens.map Located.value = tokens) :
    ∃ n t, Reads macros (u.push (.expansion name e)) n (replaced macros active tokens) t ∧
      t.peek = u.peek := by
  induction tokens generalizing e with
  | nil =>
    have hend : (Frame.expansion name e).peek.1 = .ok .fileEnd := by
      simp [Frame.peek, Expansion.peek_fst, List.map_eq_nil_iff.1 he]
    rw [replaced]
    exact ⟨0, _, .refl _, peek_put_cons_end hline rfl hend []⟩
  | cons token tokens ih =>
    obtain ⟨hfirst, hrest⟩ := List.forall_mem_cons.1 hinline
    have htokens : (e.tokens.head?.map Located.value).getD .fileEnd = token := by
      rw [← List.head?_map, he]
      rfl
    have hpeek : (Frame.expansion name e).peek.1 = .ok token := by
      rw [Frame.peek, Expansion.peek_fst, htokens]
    have hne : (Frame.expansion name e).peek.1 ≠ .ok .fileEnd := by
      rw [hpeek]
      exact fun heq => hfirst.2 (Except.ok.inj heq)
    have hlook : (u.push (.expansion name e)).peek =
        (.ok token, u.put [.expansion name e.peek.2]) := by
      rw [← hpeek]
      exact peek_put_cons hline hne []
    obtain ⟨n, t, hreads, hend⟩ := htoken _ _ token hlook hfirst rfl hline fun other => by
      simp only [hactive, isUsing_put, List.any_cons, List.any_nil, Frame.isUseOf, Bool.or_false,
        Bool.or_eq_true, beq_iff_eq, eq_comm (a := other)]
    -- What is left of the use is one token shorter.
    rw [eat_put_cons hline] at hend
    obtain ⟨m, v, hreads', hend'⟩ := ih hrest (e := e.peek.2.eat) (by
      rw [Expansion.tokens_eat, Expansion.tokens_peek, List.map_tail, he, List.tail_cons])
    obtain ⟨w, hw, hwend⟩ := hreads.trans hend hreads'
    rw [replaced_cons]
    exact ⟨n + m, w, hw, hwend.trans hend'⟩

theorem isUsing_eat (h : s.lineEnded = false) (name : String) :
    s.eat.isUsing name = s.isUsing name := by
  rw [eat, if_neg (by simp [h])]
  obtain ⟨root, stack, lineEnded⟩ := s
  cases stack with
  | nil | cons f stack => simp [mapTop, isUsing, frames]

/-- One token and all that comes of it. -/
theorem reads_token (hmacros : ∀ name m, macros.find? name = some m → m.ObjectLike name)
    (active : List String) : ReplacesToken macros active := by
  -- In the body of a macro there is one macro less to replace.
  induction hunused : unused macros active using Nat.strongRecOn generalizing active with
  | ind bound ih =>
    intro s here token hpeek hinline hexpands hline hactive
    -- A token that is not the name of a macro out of use is given as it is.
    have hgive : Parsing.useOf? { supply := here, macros } token = none →
        replaced macros active [token] = [token] →
        ∃ n t, Reads macros s n (replaced macros active [token]) t ∧ t.peek = here.eat.peek := by
      intro hplain hsame
      rw [hsame]
      exact ⟨1, here.eat, .give hpeek hinline hplain (.refl _), rfl⟩
    cases token with
    | name name =>
      by_cases hname : name ∈ active
      · refine hgive ?_ (by simp [replaced_cons_name, hname])
        simp [Parsing.useOf?, (hactive name).1 hname]
      · have husing : here.isUsing name = false := by
          rw [← Bool.not_eq_true, ← hactive]
          exact hname
        cases hm : macros.find? name with
        | none =>
          refine hgive ?_ (by simp [replaced_cons_name, hm])
          simp [Parsing.useOf?, hm]
        | some m =>
          have hobject := hmacros name m hm
          have huse : Parsing.useOf? { supply := here, macros } (.name name) = some m := by
            simp [Parsing.useOf?, hexpands, husing, hm]
          have hinner := ih _ (hunused ▸ unused_cons_lt hm hname) (name :: active) rfl
          obtain ⟨n, t, hreads, hend⟩ := reads_expansion hinner hobject.inline
            (Pairing.lineEnded_eat here) m.name (e := .ofMacro m []) (by
              intro other
              rw [List.mem_cons, hobject.name, isUsing_eat hline, hactive])
            (by rw [Expansion.tokens_ofMacro]; rfl)
          rw [replaced_cons_name, if_neg hname, hm, Option.elim_some, replaced_nil, List.append_nil]
          exact ⟨n + 1, t, .replace hpeek huse hobject.params hreads, hend⟩
    | _ => exact hgive rfl (by simp [replaced_cons_of_ne])

/-! ## A line of a file -/

/-- The tokens of the line as they are written, and the sources at its end, unless something in the
    line is no token. -/
def line (s : Supply) : Option (List Token × Supply) :=
  if _h : Reading.isToken .fileEnd s.peek.1 then some ([], s.peek.2)
  else match s.peek.1 with
    | .error _ => none
    | .ok .lineEnd => some ([], s.peek.2)
    | .ok token => s.peek.2.eat.line.map fun rest => (token :: rest.1, rest.2)
termination_by s.remaining
decreasing_by exact s.remaining_eat_lt (by simpa using _h)

/-- Nothing but files is read. -/
def InFiles (s : Supply) : Prop := ∀ f ∈ s.frames, f.isFile = true

theorem InFiles.isUsing_eq (h : s.InFiles) (name : String) : s.isUsing name = false := by
  rw [isUsing, List.any_eq_false]
  intro f hf
  rw [Frame.isUseOf_of_isFile (h f hf)]
  simp

theorem InFiles.top (h : s.InFiles) : s.top.isFile = true := by
  refine h s.top ?_
  rw [frames_eq]
  exact .head _

theorem InFiles.withTop (h : s.InFiles) {f : Frame} (hf : f.isFile = true) : (s.withTop f).InFiles := by
  unfold InFiles at h ⊢
  rw [frames_eq] at h
  rw [frames_withTop]
  exact List.forall_mem_cons.2 ⟨hf, (List.forall_mem_cons.1 h).2⟩

/-- A token of a line is read from the topmost file. -/
theorem InFiles.of_peek (h : s.InFiles) {token : Token} (hpeek : s.peek.1 = .ok token)
    (hinline : token.Inline) :
    s.peek.2.InFiles ∧ s.peek.2.lineEnded = false ∧ s.peek.2.expands = true ∧ s.peek.2.eat.InFiles := by
  have hline := lineEnded_of_peek hpeek hinline.1
  obtain ⟨_, hhere⟩ := top_of_peek hline h.top hpeek hinline
  have hfile : s.top.peek.2.isFile = true := by rw [Frame.isFile_peek, h.top]
  rw [hhere, lineEnded_withTop, expands, top_withTop, eat_withTop hline]
  exact ⟨h.withTop hfile, hline, Pairing.expands_of_isFile hfile, h.withTop (by rwa [Frame.isFile_eat])⟩

/-- What comes of a line, and where it ends. -/
theorem reads_line (hmacros : ∀ name m, macros.find? name = some m → m.ObjectLike name)
    (hs : s.InFiles) {tokens : List Token} (hline : s.line = some (tokens, t)) :
    ∃ n v, Reads macros s n (replaced macros [] tokens) v ∧ v.peek.2 = t ∧
      (v.peek.1 = .ok .lineEnd ∨ v.peek.1 = .ok .fileEnd) := by
  fun_induction Supply.line s generalizing tokens with
  | case1 s hend =>
    obtain ⟨rfl, rfl⟩ := Prod.mk.inj (Option.some.inj hline)
    rw [replaced]
    exact ⟨0, s, .refl s, rfl, .inr ((Reading.isToken_iff ..).1 hend)⟩
  | case2 s hend fault hfault => simp at hline
  | case3 s hend hend' =>
    obtain ⟨rfl, rfl⟩ := Prod.mk.inj (Option.some.inj hline)
    rw [replaced]
    exact ⟨0, s, .refl s, rfl, .inl hend'⟩
  | case4 s hend token hne htoken ih =>
    obtain ⟨⟨rest, final⟩, hrest, heq⟩ := Option.map_eq_some_iff.1 hline
    obtain ⟨rfl, rfl⟩ := Prod.mk.inj heq
    have hinline : token.Inline := ⟨hne, fun heq => by simp [htoken, heq] at hend⟩
    obtain ⟨hhere, hended, hexpands, hnext⟩ := hs.of_peek htoken hinline
    -- The token with all that comes of it, and then the rest of the line.
    obtain ⟨n, v, hreads, hv⟩ := reads_token hmacros [] s s.peek.2 token (Prod.ext htoken rfl) hinline
      hexpands hended fun name => by simp [hhere.isUsing_eq]
    obtain ⟨m, w, hreads', hw, hstop⟩ := ih hnext hrest
    obtain ⟨final, hfinal, hpeek⟩ := hreads.trans hv hreads'
    rw [replaced_cons]
    exact ⟨n + m, final, hfinal, by rw [hpeek, hw], by rwa [hpeek]⟩

end Supply

namespace Parsing

/-! ## The tokens that are given for a line -/

/-- Drops a token of a line and goes on, unless the line is at its end. -/
def lineFrom (rest : Parsing (List Token)) (token : Token) : Parsing (List Token) :=
  if token = .lineEnd ∨ token = .fileEnd then return []
  else do
    eat
    return token :: (← rest)

/-- Looks at the tokens of a line and drops them, at most `rounds` of them. -/
def lineTokens (limit : Nat) : (rounds : Nat) → Parsing (List Token)
  | 0 => throw .endless
  | rounds + 1 => peek limit >>= lineFrom (lineTokens limit rounds)

section Peek

variable (state : ParseState) {token : Token} {here : Supply} {limit : Nat}

theorem peek_of_useOf?_none (h : state.supply.peek = (.ok token, here))
    (hplain : useOf? { state with supply := here } token = none) :
    peek (limit + 1) state = .ok token { state with supply := here } := by
  have hraw : peekRaw state = .ok token { state with supply := here } := by rw [peekRaw, h]
  rw [peek, bind_of_ok hraw, get_bind, hplain]
  rfl

theorem peek_of_useOf?_some {m : Macro} (h : state.supply.peek = (.ok token, here))
    (huse : useOf? { state with supply := here } token = some m) (hparams : m.params = none) :
    peek (limit + 1) state =
      peek limit { state with supply := here.eat.push (.expansion m.name (.ofMacro m [])) } := by
  have hraw : peekRaw state = .ok token { state with supply := here } := by rw [peekRaw, h]
  have hexpand : expand m { state with supply := here } =
      .ok () { state with supply := here.eat.push (.expansion m.name (.ofMacro m [])) } := by
    simp only [expand, hparams]
    rfl
  rw [peek, bind_of_ok hraw, get_bind, huse]
  exact bind_of_ok hexpand _

end Peek

/-- The steps of the sources are those of the loop.  The first look may have replaced some uses
    already, so it has turns of its own left. -/
theorem lineTokens_of_reads {state : ParseState} {s v : Supply} {n : Nat} {tokens : List Token}
    (h : Supply.Reads state.macros s n tokens v)
    (hstop : v.peek.1 = .ok .lineEnd ∨ v.peek.1 = .ok .fileEnd) {limit rounds turns : Nat}
    (hlimit : n < limit) (hrounds : n ≤ rounds) (hturns : n < turns) :
    (peek turns >>= lineFrom (lineTokens limit rounds)) { state with supply := s } =
      .ok tokens { state with supply := v.peek.2 } := by
  induction h generalizing rounds turns with
  | refl s =>
    obtain ⟨turns, rfl⟩ : ∃ k, turns = k + 1 := ⟨turns - 1, by omega⟩
    obtain ⟨token, htoken, hpeek⟩ : ∃ token, (token = .lineEnd ∨ token = .fileEnd) ∧
        s.peek.1 = .ok token := by
      rcases hstop with hstop | hstop
      · exact ⟨.lineEnd, .inl rfl, hstop⟩
      · exact ⟨.fileEnd, .inr rfl, hstop⟩
    have hplain : useOf? { state with supply := s.peek.2 } token = none := by
      rcases htoken with rfl | rfl <;> rfl
    rw [bind_of_ok (peek_of_useOf?_none { state with supply := s } (Prod.ext hpeek rfl)
      hplain), lineFrom, if_pos htoken]
    rfl
  | @give s here t token n tokens hpeek hinline hplain h ih =>
    obtain ⟨turns, rfl⟩ : ∃ k, turns = k + 1 := ⟨turns - 1, by omega⟩
    obtain ⟨rounds, rfl⟩ : ∃ k, rounds = k + 1 := ⟨rounds - 1, by omega⟩
    have hlimit' : n < limit := by omega
    have hrest : lineTokens limit (rounds + 1) { state with supply := here.eat } =
        .ok tokens { state with supply := t.peek.2 } := ih hstop hlimit' (by omega) hlimit'
    rw [bind_of_ok (peek_of_useOf?_none { state with supply := s } hpeek hplain), lineFrom,
      if_neg (not_or.2 hinline)]
    -- The token is dropped, and the loop goes on behind it.
    have heat : eat { state with supply := here } = .ok () { state with supply := here.eat } := rfl
    rw [bind_of_ok heat, bind_of_ok hrest]
    rfl
  | @replace s here t token m n tokens hpeek huse hparams h ih =>
    obtain ⟨turns, rfl⟩ : ∃ k, turns = k + 1 := ⟨turns - 1, by omega⟩
    have hrest := ih hstop (by omega) (by omega : n ≤ rounds) (by omega : n < turns)
    show EStateM.bind (peek (turns + 1)) _ _ = _
    rw [EStateM.bind, peek_of_useOf?_some { state with supply := s } hpeek huse hparams]
    exact hrest

/-- The tokens that are given for a line of a script are those of the line with the macros replaced, and
    reading stops at the end of the line. -/
theorem lineTokens_eq_replaced {state : ParseState} {line : List Token} {after : Supply}
    (hmacros : ∀ name m, state.macros.find? name = some m → m.ObjectLike name)
    (hfiles : state.supply.InFiles) (hline : state.supply.line = some (line, after)) :
    ∃ bound, ∀ limit ≥ bound, ∀ rounds ≥ bound, lineTokens limit rounds state =
      .ok (replaced state.macros [] line) { state with supply := after } := by
  obtain ⟨n, v, hreads, rfl, hstop⟩ := Supply.reads_line hmacros hfiles hline
  refine ⟨n + 1, fun limit hlimit rounds hrounds => ?_⟩
  obtain ⟨rounds, rfl⟩ : ∃ k, rounds = k + 1 := ⟨rounds - 1, by omega⟩
  exact lineTokens_of_reads hreads hstop hlimit (by omega) hlimit

end Parsing

namespace Sample

/-- A script of some lines. -/
def lines (text : String) : Supply := { root := .file none (.ofBytes "lines" (Utf8.encode text)) }

/-- The macro that a line stands for. -/
def macroOf (name text : String) : Macro :=
  { name, params := none, body := ((lines text).body none #[]).1.toOption.getD [] }

theorem macroOf_objectLike (name text : String) : (macroOf name text).ObjectLike name := by
  unfold macroOf
  cases hbody : (lines text).body none #[] with
  | mk outcome rest =>
    cases outcome with
    | ok body => exact Macro.objectLike_of_body name hbody
    | error fault => exact ⟨rfl, rfl, fun token htoken => absurd htoken List.not_mem_nil⟩

/-- Macros that use each other and themselves. -/
def rings : Dictionary Macro :=
  { entries := [("a", macroOf "a" "b c 1"), ("b", macroOf "b" "a b 2"), ("c", macroOf "c" "c a")] }

theorem rings_objectLike {name : String} {m : Macro} (h : rings.find? name = some m) :
    m.ObjectLike name := by
  obtain ⟨before, after, hentries, _⟩ := List.lookup_eq_some_iff.1 h
  have hmem : (name, m) ∈ rings.entries := by simp [hentries]
  simp only [rings, List.mem_cons, Prod.mk.injEq, List.not_mem_nil, or_false] at hmem
  rcases hmem with ⟨rfl, rfl⟩ | ⟨rfl, rfl⟩ | ⟨rfl, rfl⟩
  · exact macroOf_objectLike ..
  · exact macroOf_objectLike ..
  · exact macroOf_objectLike ..

theorem replaced_rings :
    replaced rings [] [.name "a", .symbol .plus, .name "x", .name "b"] =
      [.name "a", .name "b", .number 2, .name "c", .name "a", .number 1, .symbol .plus,
        .name "x", .name "b", .name "c", .name "a", .number 1, .name "b", .number 2] := by
  have ha : rings.find? "a" = some (macroOf "a" "b c 1") := rfl
  have hb : rings.find? "b" = some (macroOf "b" "a b 2") := rfl
  have hc : rings.find? "c" = some (macroOf "c" "c a") := rfl
  have hx : rings.find? "x" = none := rfl
  have hbodyA : (macroOf "a" "b c 1").tokens = [.name "b", .name "c", .number 1] := by decide +kernel
  have hbodyB : (macroOf "b" "a b 2").tokens = [.name "a", .name "b", .number 2] := by decide +kernel
  have hbodyC : (macroOf "c" "c a").tokens = [.name "c", .name "a"] := by decide +kernel
  simp [replaced_cons_name, replaced_cons_of_ne, ha, hb, hc, hx, hbodyA, hbodyB, hbodyC]

end Sample

namespace Parsing

/-- A line with uses of macros that use each other and themselves. -/
theorem lineTokens_eq_replaced_rings :
    let state : ParseState := { supply := Sample.lines "a + x b\nc", macros := Sample.rings }
    state.supply.InFiles ∧
      ∃ after, state.supply.line = some ([.name "a", .symbol .plus, .name "x", .name "b"], after) ∧
        ∃ bound, ∀ limit ≥ bound, ∀ rounds ≥ bound, lineTokens limit rounds state =
          .ok [.name "a", .name "b", .number 2, .name "c", .name "a", .number 1, .symbol .plus,
            .name "x", .name "b", .name "c", .name "a", .number 1, .name "b", .number 2]
            { state with supply := after } := by
  intro state
  have hfiles : state.supply.InFiles := List.forall_mem_singleton.2 rfl
  have htokens : state.supply.line.map Prod.fst =
      some [.name "a", .symbol .plus, .name "x", .name "b"] := by
    decide +kernel
  obtain ⟨⟨tokens, after⟩, hline, rfl⟩ := Option.map_eq_some_iff.1 htokens
  refine ⟨hfiles, after, hline, ?_⟩
  rw [← Sample.replaced_rings]
  exact lineTokens_eq_replaced (fun name m hm => Sample.rings_objectLike hm) hfiles hline

end Parsing

/-! ## The tokens of a use -/

namespace MacroStream

/-- The stream after a number of turns of looking at a token and dropping it. -/
def afterRounds : Nat → MacroStream → MacroStream
  | 0, s => s
  | n + 1, s => (s.afterRounds n).peek.2.eat

/-- A turn drops the first item that is left. -/
theorem items_afterRounds {s : MacroStream} (h : s.Parked) (n : Nat) :
    (s.afterRounds n).items = s.items.drop n ∧ (s.afterRounds n).Parked ∧
      (s.afterRounds n).name = s.name := by
  induction n with
  | zero => exact ⟨rfl, h, rfl⟩
  | succ n ih =>
    obtain ⟨hitems, hparked, hname⟩ := ih
    refine ⟨?_, hparked.settle.eat, ?_⟩
    · show (s.afterRounds n).settle.eat.items = _
      rw [items_eat hparked.settle, items_settle, hitems, List.tail_drop]
    · exact (name_eat _).1.trans hname

/-- A stream of recorded tokens is substitution.  Turn by turn, `peek` shows the items of the body with
    each reference replaced by its argument, at their positions, and then the end.  The fault of a
    reference in an argument stands where that reference is; for a body and arguments that were read
    from a script there is none, and the turns are those of `Frame.ahead` for the use of the macro. -/
theorem peek_afterRounds (m : Macro) (args : List Pieces) :
    (∀ n, ((use m args).afterRounds n).peek.1 = reading m.name (fill m.body args)[n]? ∧
        ∀ item ∈ (fill m.body args)[n]?,
          ((use m args).afterRounds n).peek.2.position = item.position) ∧
      ∀ (s t u v : Supply) (expected : Nat), s.body m.params #[] = (.ok m.body, t) →
        (args = [] ∨ u.arguments Located.record expected #[] #[] 0 = (.ok args, v)) →
        (∀ n, ∃ token, ((use m args).afterRounds n).peek.1 = .ok token) ∧
        ∃ tokens, fill m.body args = tokens.map Located.record ∧
          ∀ e : Expansion, e.toMacroStream = use m args →
            (Frame.expansion m.name e).ahead = Frame.roundsOf tokens := by
  have hrounds (n : Nat) : ((use m args).afterRounds n).peek.1 = reading m.name (fill m.body args)[n]? ∧
      ∀ item ∈ (fill m.body args)[n]?, ((use m args).afterRounds n).peek.2.position = item.position := by
    obtain ⟨hitems, -, hname⟩ := items_afterRounds (s := use m args) (fun _ _ _ => rfl) n
    have hhead : ((use m args).afterRounds n).items.head? = (fill m.body args)[n]? := by
      rw [hitems, List.head?_drop, items_use]
    refine ⟨by rw [peek_fst, hhead, hname]; rfl, fun item hitem => position_peek ?_⟩
    rw [hhead]
    exact hitem
  refine ⟨hrounds, fun s t u v expected hbody hargs => ?_⟩
  obtain ⟨recorded, rfl, hinline⟩ := Supply.exists_recorded hargs
  have htokens := forall_mem_substitute (Supply.inline_of_body hbody) hinline
  have hfill := Expansion.fill_record m.body recorded
  refine ⟨fun n => ?_, substitute m.body recorded, hfill, fun e he => ?_⟩
  · rw [(hrounds n).1, hfill, List.getElem?_map]
    cases (substitute m.body recorded)[n]? with
    | none => exact ⟨.fileEnd, rfl⟩
    | some token => exact ⟨token.value, rfl⟩
  · have hleft : e.tokens = substitute m.body recorded := by
      rw [Expansion.tokens, he, items_use, hfill, Expansion.filterMap_record]
    rw [Frame.ahead_expansion, hleft]
    rw [hleft]
    exact fun item hitem => (htokens item hitem).2

end MacroStream

namespace Sample

/-- A macro of `x` and `y` that stands for `x y x + y x`. -/
def pair : Macro where
  name := "PAIR"
  params := some ["x", "y"]
  body := [⟨⟨"lines", 1, 1⟩, .argument 0⟩, ⟨⟨"lines", 1, 3⟩, .argument 1⟩,
    ⟨⟨"lines", 1, 5⟩, .argument 0⟩, ⟨⟨"lines", 1, 7⟩, .token (.symbol .plus)⟩,
    ⟨⟨"lines", 1, 9⟩, .argument 1⟩, ⟨⟨"lines", 1, 11⟩, .argument 0⟩]

/-- Nothing for `x`, and `2 z` for `y`. -/
def pairArgs : List Pieces :=
  [[], [⟨⟨"lines", 1, 3⟩, .token (.number 2)⟩, ⟨⟨"lines", 1, 5⟩, .token (.name "z")⟩]]

end Sample

/-- References to an empty argument, in front, at the end and between others. -/
theorem MacroStream.peek_afterRounds_pair :
    ((Sample.lines "x y x + y x").body Sample.pair.params #[]).1 = .ok Sample.pair.body ∧
      ((Sample.lines ", 2 z)").arguments Located.record 2 #[] #[] 0).1 = .ok Sample.pairArgs ∧
      (fill Sample.pair.body Sample.pairArgs).map Located.value =
        [.number 2, .name "z", .symbol .plus, .number 2, .name "z"].map Piece.token ∧
      ∀ n, ∃ token, ((use Sample.pair Sample.pairArgs).afterRounds n).peek.1 = .ok token := by
  have hbody : ((Sample.lines "x y x + y x").body Sample.pair.params #[]).1 =
      .ok Sample.pair.body := by decide +kernel
  have hargs : ((Sample.lines ", 2 z)").arguments Located.record 2 #[] #[] 0).1 =
      .ok Sample.pairArgs := by decide +kernel
  refine ⟨hbody, hargs, rfl, ?_⟩
  exact ((peek_afterRounds Sample.pair Sample.pairArgs).2 _ _ _ _ 2 (Prod.ext hbody rfl)
    (.inr (Prod.ext hargs rfl))).1

/-- A reference inside an argument is a fault, and the tokens behind it are still reached. -/
example : (List.range 4).map (fun n => (((MacroStream.use Sample.pair
      [[], [⟨⟨"lines", 1, 3⟩, .argument 0⟩]]).afterRounds n).peek.1)) =
    [.error (.nestedArgument "PAIR"), .ok (.symbol .plus), .error (.nestedArgument "PAIR"),
      .ok .fileEnd] := by decide +kernel

end CartScript
