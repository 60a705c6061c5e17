import CartScript.Proofs.Script.Weight

/-!
# Computations that come to an end

The loops that read a script are bounded by a limit.  `Settles` says of a computation that from some
limit on it has one and the same result, which is no fault for want of turns.  A loop settles if each of
its turns leaves lighter sources to the next.  The first one is the loop that replaces the uses of macros
before the next token.
-/

namespace CartScript

variable {names : List String}

namespace ParseState

/-- The sources of a script and the macros that it has defined. -/
structure Orderly (names : List String) (s : ParseState) : Prop where
  supply : s.supply.Orderly names
  macros : ∀ name m, s.macros.find? name = some m →
    m.name = name ∧ name ∈ names ∧ Supply.BodyHas (Token.Known names) m.body

/-- The weight of the sources. -/
def weight (names : List String) (s : ParseState) : Multiset Nat :=
  s.supply.weight (names.length + 1)

/-- A later state, whose sources are no heavier. -/
structure After (names : List String) (s t : ParseState) : Prop where
  orderly : t.Orderly names
  weight : t.weight names = s.weight names ∨ Lighter (t.weight names) (s.weight names)

/-- A later state, whose sources are lighter. -/
structure Sooner (names : List String) (s t : ParseState) : Prop where
  orderly : t.Orderly names
  weight : Lighter (t.weight names) (s.weight names)

variable {s t u : ParseState}

theorem After.refl (h : s.Orderly names) : After names s s := ⟨h, .inl rfl⟩

theorem Sooner.after (h : Sooner names s t) : After names s t := ⟨h.orderly, .inr h.weight⟩

theorem Sooner.trans_after (hst : Sooner names s t) (htu : After names t u) : Sooner names s u := by
  refine ⟨htu.orderly, ?_⟩
  rcases htu.weight with heq | hlighter
  · rw [heq]
    exact hst.weight
  · exact hlighter.trans hst.weight

theorem After.trans_sooner (hst : After names s t) (htu : Sooner names t u) : Sooner names s u := by
  refine ⟨htu.orderly, ?_⟩
  rcases hst.weight with heq | hlighter
  · rw [← heq]
    exact htu.weight
  · exact htu.weight.trans hlighter

theorem After.trans (hst : After names s t) (htu : After names t u) : After names s u := by
  rcases htu.weight with heq | hlighter
  · exact ⟨htu.orderly, heq ▸ hst.weight⟩
  · exact (hst.trans_sooner ⟨htu.orderly, hlighter⟩).after

theorem Orderly.consumes (h : s.Orderly names) {supply : Supply} (hst : s.supply.Consumes supply) :
    { s with supply }.Orderly names :=
  ⟨h.supply.consumes hst, h.macros⟩

theorem after_of_consumes (h : s.Orderly names) {supply : Supply} (hst : s.supply.Consumes supply) :
    After names s { s with supply } :=
  ⟨h.consumes hst, eq_or_lighter_of_le (Supply.weight_le_of_consumes hst)⟩

end ParseState

namespace Parsing

open ParseState

variable {α β : Type} {s t : ParseState} {Q : α → ParseState → Prop} {R : β → ParseState → Prop}
  {E : ParseState → Prop}

/-! ## Computations in general -/

/-- The result is as told, and so is the state after a fault, which does not end the reading. -/
def Meets (Q : α → ParseState → Prop) (E : ParseState → Prop) :
    EStateM.Result ParseFault ParseState α → Prop
  | .ok a t => Q a t
  | .error fault t => isFatal fault = false ∧ E t

/-- From some limits on there is one result, which is as told. -/
def Settles (p : (limit rounds : Nat) → Parsing α) (s : ParseState) (Q : α → ParseState → Prop)
    (E : ParseState → Prop) : Prop :=
  ∃ bound result, (∀ limit ≥ bound, ∀ rounds ≥ bound, p limit rounds s = result) ∧ Meets Q E result

theorem Settles.of_meets {p : Parsing α} (h : Meets Q E (p s)) : Settles (fun _ _ => p) s Q E :=
  ⟨0, p s, fun _ _ _ _ => rfl, h⟩

variable {p : Nat → Nat → Parsing α} {q : α → Nat → Nat → Parsing β} {supply : Supply} {rank : Nat}
  {token : Token} {m : Macro} {σ : Type}

theorem Settles.imp (h : Settles p s Q E) {Q' : α → ParseState → Prop} {E' : ParseState → Prop}
    (hQ : ∀ a t, Q a t → Q' a t) (hE : ∀ t, E t → E' t) : Settles p s Q' E' := by
  obtain ⟨bound, result, hsame, hmeets⟩ := h
  refine ⟨bound, result, hsame, ?_⟩
  cases result with
  | ok a t => exact hQ a t hmeets
  | error fault t => exact ⟨hmeets.1, hE t hmeets.2⟩

/-- One computation after another. -/
theorem Settles.bind (hp : Settles p s Q E) (hq : ∀ a t, Q a t → Settles (q a) t R E) :
    Settles (fun limit rounds => p limit rounds >>= fun a => q a limit rounds) s R E := by
  obtain ⟨bound, result, hsame, hmeets⟩ := hp
  cases result with
  | error fault t =>
    refine ⟨bound, .error fault t, ?_, hmeets⟩
    intro limit hlimit rounds hrounds
    show EStateM.bind (p limit rounds) _ s = _
    rw [EStateM.bind, hsame limit hlimit rounds hrounds]
  | ok a t =>
    obtain ⟨bound', result', hsame', hmeets'⟩ := hq a t hmeets
    refine ⟨max bound bound', result', ?_, hmeets'⟩
    intro limit hlimit rounds hrounds
    show EStateM.bind (p limit rounds) _ s = _
    rw [EStateM.bind, hsame limit (le_of_max_le_left hlimit) rounds (le_of_max_le_left hrounds)]
    exact hsame' limit (le_of_max_le_right hlimit) rounds (le_of_max_le_right hrounds)

theorem Settles.diag (h : Settles p s Q E) : Settles (fun limit _ => p limit limit) s Q E := by
  obtain ⟨bound, result, hsame, hmeets⟩ := h
  exact ⟨bound, result, fun limit hlimit _ _ => hsame limit hlimit limit hlimit, hmeets⟩

theorem Settles.get_bind {q : ParseState → Nat → Nat → Parsing β} (h : Settles (q s) s R E) :
    Settles (fun limit rounds => get >>= fun t => q t limit rounds) s R E := h

theorem Settles.onSupply {f : Supply → Except ParseFault α × Supply}
    (hok : ∀ a supply, f s.supply = (.ok a, supply) → Q a { s with supply })
    (herror : ∀ fault supply, f s.supply = (.error fault, supply) →
      isFatal fault = false ∧ E { s with supply }) : Settles (fun _ _ => onSupply f) s Q E := by
  refine .of_meets ?_
  rw [Parsing.onSupply]
  cases hf : f s.supply with
  | mk outcome supply =>
    cases outcome with
    | ok a => exact hok a supply hf
    | error fault => exact herror fault supply hf

/-- A loop settles if each of its turns leaves lighter sources to the next. -/
theorem Settles.loop (loop : σ → Nat → Nat → Parsing α) {Q : ParseState → α → ParseState → Prop}
    {E : ParseState → ParseState → Prop} (h : ∀ x s, s.Orderly names →
      (∀ x' t, Sooner names s t → Settles (loop x') t (Q t) (E t)) →
      Settles (fun limit rounds => loop x limit (rounds + 1)) s (Q s) (E s)) (x : σ)
    (s : ParseState) (hs : s.Orderly names) : Settles (loop x) s (Q s) (E s) := by
  generalize hweight : s.weight names = weight
  induction weight using lighter_wellFounded.induction generalizing x s with
  | _ weight ih =>
    obtain ⟨bound, result, hsame, hmeets⟩ :=
      h x s hs fun x' t ht => ih (t.weight names) (hweight ▸ ht.weight) x' t ht.orderly rfl
    -- One turn more than the rest of the loop needs.
    refine ⟨bound + 1, result, ?_, hmeets⟩
    intro limit hlimit rounds hrounds
    obtain ⟨rounds, rfl⟩ : ∃ n, rounds = n + 1 := ⟨rounds - 1, by omega⟩
    exact hsame limit (by omega) rounds (by omega)

/-- A computation that settles and leaves no heavier sources. -/
def Quiet (names : List String) (p : (limit rounds : Nat) → Parsing α) : Prop :=
  ∀ s, s.Orderly names → Settles p s (fun _ => After names s) (After names s)

theorem Quiet.bind (hp : Quiet names p) (hq : ∀ a, Quiet names (q a)) :
    Quiet names fun limit rounds => p limit rounds >>= fun a => q a limit rounds := by
  intro s hs
  refine (hp s hs).bind fun a t ht => ?_
  exact (hq a t ht.orderly).imp (fun _ _ => ht.trans) fun _ => ht.trans

theorem Quiet.pure (a : α) : Quiet names fun _ _ => Pure.pure a :=
  fun _ hs => .of_meets (After.refl hs)

theorem Quiet.throw {fault : ParseFault} (h : isFatal fault = false) :
    Quiet names fun _ _ => (throw fault : Parsing α) :=
  fun _ hs => .of_meets ⟨h, After.refl hs⟩

theorem Quiet.get : Quiet names fun _ _ => (get : Parsing ParseState) :=
  fun _ hs => .of_meets (After.refl hs)

/-- A change of what was noted leaves the sources as they are. -/
theorem Quiet.modify {change : ParseState → ParseState} (hsupply : ∀ s, (change s).supply = s.supply)
    (hmacros : ∀ s name m, (change s).macros.find? name = some m → s.macros.find? name = some m) :
    Quiet names fun _ _ => (modify change : Parsing Unit) := by
  intro s hs
  refine .of_meets ?_
  show After names s (change s)
  refine ⟨⟨?_, fun name m hm => hs.macros name m (hmacros s name m hm)⟩, .inl ?_⟩
  · rw [hsupply]
    exact hs.supply
  · rw [ParseState.weight, hsupply, ParseState.weight]

theorem Quiet.diag (h : Quiet names p) :
    Quiet names fun limit _ => p limit limit := fun s hs => (h s hs).diag

/-- A loop is quiet if each of its turns leaves lighter sources to the next. -/
theorem Quiet.loop (loop : σ → Nat → Nat → Parsing α) (h : ∀ x s, s.Orderly names →
      (∀ x' t, Sooner names s t → Settles (loop x') t (fun _ => After names t) (After names t)) →
      Settles (fun limit rounds => loop x limit (rounds + 1)) s (fun _ => After names s) (After names s))
    (x : σ) : Quiet names fun limit _ => loop x limit limit :=
  .diag (Settles.loop loop (Q := fun s _ => After names s) (E := After names) h x)

/-! ## Tokens -/

/-- The next token was looked at. -/
def Faces (s : ParseState) (token : Token) : Prop := s.supply.peek = (.ok token, s.supply)

/-- Sources that are lighter by the rank of a token, but for tokens of lower ranks. -/
theorem sooner_of_drop (hs : s.Orderly names) (hsupply : supply.Orderly names)
    {kept put : Multiset Nat} (hweight : supply.weight (names.length + 1) = kept + put)
    (hdrop : kept + {rank} ≤ s.weight names) (hput : ∀ n ∈ put, n < rank) :
    Sooner names s { s with supply } := by
  refine ⟨⟨hsupply, hs.macros⟩, ?_⟩
  show Lighter (supply.weight (names.length + 1)) _
  rw [hweight]
  exact lighter_of_drop hdrop hput

theorem drop_of_consumes {a b : Supply} (h : a.Consumes b) {bound : Nat} {whole : Multiset Nat}
    (hdrop : a.weight bound + {rank} ≤ whole) : b.weight bound + {rank} ≤ whole :=
  le_trans (add_le_add_left (Supply.weight_le_of_consumes h) _) hdrop

theorem sooner_of_consumes (hs : s.Orderly names) (h : s.supply.Consumes supply)
    (hdrop : supply.weight (names.length + 1) + {rank} ≤ s.weight names) :
    Sooner names s { s with supply } :=
  sooner_of_drop hs (hs.supply.consumes h) (add_zero _).symm hdrop (by simp)

theorem settles_peekRaw (hs : s.Orderly names) : Settles (fun _ _ => peekRaw) s
    (fun token t => After names s t ∧ Faces t token) (Sooner names s) := by
  refine .of_meets ?_
  have hconsumes := hs.supply.consumes_peek
  rw [peekRaw]
  cases hpeek : s.supply.peek with
  | mk reading supply =>
    have hsupply : s.supply.peek.2 = supply := by rw [hpeek]
    rw [hsupply] at hconsumes
    cases reading with
    | ok token =>
      refine ⟨after_of_consumes hs hconsumes, ?_⟩
      have hagain : s.supply.peek.2.peek = (.ok token, s.supply.peek.2) :=
        Supply.peek_peek (by rw [hpeek])
      rwa [hsupply] at hagain
    | error fault =>
      have hdrop : Supply.weight (names.length + 1) s.supply.peek.2 + _ ≤ _ :=
        Supply.weight_peek_error hs.supply.toPlain (by rw [hpeek])
      rw [hsupply] at hdrop
      exact ⟨rfl, sooner_of_consumes hs hconsumes hdrop⟩

/-- Looking at a token changes the sources and nothing else. -/
theorem meets_peekRaw (s : ParseState) :
    Meets (fun _ t => { s with supply := s.supply.peek.2 } = t)
      (fun t => { s with supply := s.supply.peek.2 } = t) (peekRaw s) := by
  rw [peekRaw]
  cases hpeek : s.supply.peek with
  | mk reading supply =>
    cases reading with
    | ok token => exact rfl
    | error fault => exact ⟨rfl, rfl⟩

theorem quiet_peekRaw : Quiet names fun _ _ => peekRaw :=
  fun _ hs => (settles_peekRaw hs).imp (fun _ _ h => h.1) fun _ => Sooner.after

theorem quiet_eat : Quiet names fun _ _ => eat :=
  fun _ hs => .of_meets (after_of_consumes hs hs.supply.consumes_eat)

theorem weight_eat (hs : s.Orderly names) (hface : Faces s token) (htoken : token ≠ .fileEnd) :
    s.supply.eat.weight (names.length + 1) + {Supply.rank (names.length + 1) s.supply.stack} ≤
      s.weight names := by
  have hdrop : Supply.weight (names.length + 1) s.supply.peek.2.eat + _ ≤ _ :=
    Supply.weight_eat_peek hs.supply.toPlain (by rw [hface]; simpa using htoken)
  rwa [hface] at hdrop

/-- Dropping a token leaves lighter sources. -/
theorem settles_eat (hs : s.Orderly names) (hface : Faces s token) (htoken : token ≠ .fileEnd) :
    Settles (fun _ _ => eat) s (fun _ => Sooner names s) E :=
  .of_meets (sooner_of_consumes hs hs.supply.consumes_eat (weight_eat hs hface htoken))

/-! ## Uses of macros -/

/-- The use of a macro, in the place of a token of the rank of what is below it. -/
theorem sooner_of_use (hs : s.Orderly names) (hexpands : s.supply.Expands) {name : String}
    (hfresh : name ∉ Supply.uses s.supply.stack) (hm : s.macros.find? name = some m)
    (h : s.supply.Consumes supply) {args : List Argument}
    (hargs : ∀ arg ∈ args, ∀ item ∈ arg, item.value.Known names)
    (hrank : Supply.rank (names.length + 1) supply.stack = rank)
    (hdrop : supply.weight (names.length + 1) + {rank} ≤ s.weight names) :
    Sooner names s { s with supply := supply.push (.expansion m.name (.ofMacro m args)) } := by
  obtain ⟨hname, hmem, hbody⟩ := hs.macros name m hm
  have horderly := hs.supply.consumes h
  have hexpands' := hexpands.consumes h
  have htokens : ∀ item ∈ (Expansion.ofMacro m args).tokens, item.value.Known names := by
    rw [Expansion.tokens_ofMacro]
    exact forall_mem_substitute hbody hargs
  have hnew := horderly.push_use hexpands' hmem
    (fun hused => hfresh ((Supply.uses_suffix_of_consumes h).mem hused)) htokens
  rw [hname]
  refine sooner_of_drop hs hnew (Supply.weight_push _ _) hdrop ?_
  intro n hn
  rw [Multiset.eq_of_mem_replicate hn, ← hrank]
  exact horderly.rank_use_lt hexpands' _ _

/-- A name handed back, in the place of one that may be replaced. -/
theorem sooner_of_replay (hs : s.Orderly names) (hexpands : s.supply.Expands)
    (h : s.supply.Consumes supply) {name : String} (hname : name ∈ names) (place : Position)
    (hdrop : supply.weight (names.length + 1) + {Supply.rank (names.length + 1) s.supply.stack} ≤
      s.weight names) :
    Sooner names s { s with supply := supply.push (.replay (.ofToken name ⟨place, .name name⟩)) } := by
  have htokens : ∀ item ∈ (Expansion.ofToken name ⟨place, .name name⟩).tokens, item.value.Known names := by
    intro item hitem
    obtain rfl := List.mem_singleton.1 hitem
    refine ⟨?_, by simp⟩
    rintro other ⟨rfl⟩
    exact hname
  have hnew := (hs.supply.consumes h).push_replay (hexpands.consumes h) htokens
  refine sooner_of_drop hs hnew (Supply.weight_push _ _) hdrop ?_
  intro n hn
  rw [Multiset.eq_of_mem_replicate hn]
  exact hs.supply.rank_pos hexpands

/-- Arguments end with a closing parenthesis, which has the rank of what is left on top. -/
theorem settles_arguments (hs : s.Orderly names) (count : Nat) {opened : Supply}
    (hopened : s.supply.Consumes opened)
    (hdrop : opened.weight (names.length + 1) + {rank} ≤ s.weight names) :
    Settles (fun _ _ => onSupply (Supply.arguments id count #[] #[] 0)) { s with supply := opened }
      (fun args t => (∀ arg ∈ args, ∀ item ∈ arg, item.value.Known names) ∧
        ∃ supply, { s with supply } = t ∧ s.supply.Consumes supply ∧
          supply.weight (names.length + 1) + {Supply.rank (names.length + 1) supply.stack} ≤
            s.weight names) (Sooner names s) := by
  have hholds := hs.supply.toHolds.consumes hopened
  have hread := hholds.argumentsRead count
  refine .onSupply ?_ ?_
  · intro args supply houtcome
    rw [houtcome] at hread
    obtain ⟨hargs, before, hbefore, hclose, rfl⟩ := hread
    -- The source that the parenthesis was in may be another one than that of the name.
    have hupto := hopened.trans hbefore
    have hlast := hupto.plain hs.supply.toPlain
    refine ⟨hargs, _, rfl, hupto.trans hlast.consumes_next, ?_⟩
    rw [Supply.rank_eat (hlast.consumes_peek.plain hlast).lineEnded]
    exact le_trans (Supply.weight_eat_peek hlast (by simp [hclose])) (Supply.weight_le_of_consumes hupto)
  · intro fault supply houtcome
    rw [houtcome] at hread
    obtain ⟨hfault, before, hbefore, rfl⟩ := hread
    have hconsumes := hbefore.trans (hholds.consumes hbefore).consumes_peek
    exact ⟨hfault, sooner_of_consumes hs (hopened.trans hconsumes) (drop_of_consumes hconsumes hdrop)⟩

/-- Replacing the use of a macro leaves lighter sources. -/
theorem settles_expand (hs : s.Orderly names) {name : String} (hface : Faces s (.name name))
    (hexpands : s.supply.expands = true) (husing : s.supply.isUsing name = false)
    (hm : s.macros.find? name = some m) :
    Settles (fun _ _ => expand m) s (fun _ => Sooner names s) (Sooner names s) := by
  obtain ⟨hname, hmem, _⟩ := hs.macros name m hm
  have hall := hs.supply.expands hexpands
  have hfresh := Supply.not_mem_uses husing
  have hplain := hs.supply.toPlain
  have heaten := hplain.consumes_eat
  have hdrop := weight_eat hs hface (by simp)
  unfold expand
  refine .bind (Q := fun _ t => s = t) (.of_meets rfl) ?_
  rintro place _ rfl
  refine .bind (Q := fun _ t => { s with supply := s.supply.eat } = t) (.of_meets rfl) ?_
  rintro _ _ rfl
  cases m.params with
  | none =>
    -- The name itself has the rank of what is below the use.
    exact .of_meets (sooner_of_use hs hall hfresh hm heaten (by simp) (Supply.rank_eat hplain.lineEnded)
      hdrop)
  | some params =>
    have hpeeked := (heaten.plain hplain).consumes_peek
    have hlooked := heaten.trans hpeeked
    have hdrop' := drop_of_consumes hpeeked hdrop
    refine .bind ((Settles.of_meets (meets_peekRaw _)).imp (fun _ _ h => h) ?_) ?_
    · rintro _ rfl
      exact sooner_of_consumes hs hlooked hdrop'
    rintro token _ rfl
    split
    · -- Without arguments the name stands for itself.
      rw [hname]
      exact .of_meets (sooner_of_replay hs hall hlooked hmem place hdrop')
    · have heaten' := (hlooked.plain hplain).consumes_eat
      refine .bind (Q := fun _ t => { s with supply := s.supply.eat.peek.2.eat } = t) (.of_meets rfl) ?_
      rintro _ _ rfl
      rw [call_eq]
      refine (settles_arguments hs params.length (hlooked.trans heaten')
        (drop_of_consumes heaten' hdrop')).bind ?_
      rintro args _ ⟨hargs, supply, rfl, hconsumes, hweight⟩
      split
      · exact .of_meets ⟨rfl, sooner_of_consumes hs hconsumes hweight⟩
      · exact .of_meets (sooner_of_use hs hall hfresh hm hconsumes hargs rfl hweight)

theorem useOf?_eq_some (h : useOf? s token = some m) :
    ∃ name, token = .name name ∧ s.supply.expands = true ∧ s.supply.isUsing name = false ∧
      s.macros.find? name = some m := by
  cases token with
  | name name =>
    simp only [useOf?] at h
    split at h
    · rename_i hfree
      simp only [Bool.and_eq_true, Bool.not_eq_true'] at hfree
      exact ⟨name, rfl, hfree.1, hfree.2, h⟩
    · simp at h
  | _ => simp [useOf?] at h

/-- Looking at the next token replaces the uses of macros, and comes to an end. -/
theorem settles_peek (hs : s.Orderly names) : Settles (fun limit _ => peek limit) s
    (fun token t => After names s t ∧ Faces t token) (Sooner names s) := by
  refine Settles.diag (p := fun _ rounds => peek rounds) ?_
  refine Settles.loop (fun (_ : Unit) _ rounds => peek rounds)
    (Q := fun s token t => After names s t ∧ Faces t token) (E := Sooner names) ?_ () s hs
  rintro _ s hs ih
  simp only [peek]
  refine (settles_peekRaw hs).bind ?_
  rintro token t ⟨hafter, hface⟩
  refine .get_bind ?_
  cases huse : useOf? t token with
  | none => exact .of_meets ⟨hafter, hface⟩
  | some m =>
    obtain ⟨name, rfl, hexpands, husing, hm⟩ := useOf?_eq_some huse
    have hexpand := (settles_expand hafter.orderly hface hexpands husing hm).imp
      (fun _ _ => hafter.trans_sooner) fun _ => hafter.trans_sooner
    refine hexpand.bind fun _ u hu => ?_
    exact (ih () u hu).imp (fun _ _ h => ⟨hu.after.trans h.1, h.2⟩) fun _ h => hu.trans_after h.after

theorem quiet_peek : Quiet names fun limit _ => peek limit :=
  fun _ hs => (settles_peek hs).imp (fun _ _ h => h.1) fun _ => Sooner.after

theorem quiet_lineEnd : Quiet names fun limit _ => lineEnd limit := by
  unfold lineEnd
  refine quiet_peek.bind fun token => ?_
  split
  · exact quiet_eat
  · exact .pure ()
  · exact .throw rfl

theorem quiet_name (what : String) : Quiet names fun _ _ => name what := by
  unfold name
  refine quiet_peekRaw.bind fun token => ?_
  split
  · exact quiet_eat.bind fun _ => .pure _
  · exact .throw rfl

/-- What a computation does in a later state. -/
theorem Quiet.since (hp : Quiet names p) (h : After names s t) :
    Settles p t (fun _ => After names s) (After names s) :=
  (hp t h.orderly).imp (fun _ _ => h.trans) fun _ => h.trans

theorem settles_peekRaw_since (h : After names s t) : Settles (fun _ _ => peekRaw) t
    (fun token u => After names s u ∧ Faces u token) (After names s) :=
  (settles_peekRaw h.orderly).imp (fun _ _ hu => ⟨h.trans hu.1, hu.2⟩) fun _ hu => h.trans hu.after

theorem settles_peek_since (h : After names s t) : Settles (fun limit _ => peek limit) t
    (fun token u => After names s u ∧ Faces u token) (After names s) :=
  (settles_peek h.orderly).imp (fun _ _ hu => ⟨h.trans hu.1, hu.2⟩) fun _ hu => h.trans hu.after

/-- A turn of a loop: a token is dropped, and the loop goes on. -/
theorem Settles.turn {q : Nat → Nat → Parsing α} (hafter : After names s t) (hface : Faces t token)
    (htoken : token ≠ .fileEnd)
    (hq : ∀ u, Sooner names s u → Settles q u (fun _ => After names u) (After names u)) :
    Settles (fun limit rounds => eat >>= fun _ => q limit rounds) t (fun _ => After names s)
      (After names s) := by
  refine (settles_eat hafter.orderly hface htoken).bind fun _ u hu => ?_
  have hsooner := hafter.trans_sooner hu
  exact (hq u hsooner).imp (fun _ _ => hsooner.after.trans) fun _ => hsooner.after.trans

/-- A computation that begins with dropping a token. -/
def Led (names : List String) (p : (limit rounds : Nat) → Parsing α) : Prop :=
  ∀ s token, s.Orderly names → Faces s token → token ≠ .fileEnd →
    Settles p s (fun _ => Sooner names s) (Sooner names s)

theorem Led.bind (hp : Led names p) (hq : ∀ a, Quiet names (q a)) :
    Led names fun limit rounds => p limit rounds >>= fun a => q a limit rounds := by
  intro s token hs hface htoken
  refine (hp s token hs hface htoken).bind fun a t ht => ?_
  exact (hq a t ht.orderly).imp (fun _ _ => ht.trans_after) fun _ => ht.trans_after

theorem led_eat : Led names fun _ _ => eat :=
  fun _ _ hs hface htoken => settles_eat hs hface htoken

end Parsing

end CartScript
