import Mathlib.Data.List.Nodup
import CartScript.Proofs.Symbols

/-!
# What definitions settle

A label or a constant defines a name.  Definitions are tried one by one, and those that wait are tried
again in rounds.  Each one gets its value, finds its name taken, fails, or still waits when a round
changes nothing.  The values that result are the least ones that extend the table and agree with the
definitions that got theirs.

The order does not matter: if nothing goes wrong, the values are the *solution* of the definitions, and
if there is a solution, nothing goes wrong.
-/

namespace CartScript

/-! ## Solutions -/

/-- A definition that agrees with values: its own value is known, and its name has it. -/
def WaitingConstant.Holds (s : SymbolSource) (d : WaitingConstant) : Prop :=
  ∃ v, d.value.eval s d.here = .ok (.known v) ∧ s d.name = some v

theorem WaitingConstant.Holds.mono {s t : SymbolSource} {d : WaitingConstant} (h : d.Holds s)
    (hst : s.Within t) : d.Holds t := by
  obtain ⟨v, hv, hname⟩ := h
  exact ⟨v, Expr.eval_of_known hst hv, hst _ _ hname⟩

namespace SymbolSource

/-- Values that have all that definitions ask for. -/
def Closed (defs : List WaitingConstant) (s : SymbolSource) : Prop :=
  ∀ d ∈ defs, ∀ v, d.value.eval s d.here = .ok (.known v) → s d.name = some v

/-- Values that some constants have added to a table: each constant has given a new name the value of
    its expression, no other name has got a value, and no value could have been avoided. -/
structure Grown (start : SymbolSource) (declared : List WaitingConstant) (s : SymbolSource) :
    Prop where
  holds : ∀ c ∈ declared, c.Holds s
  fresh : ∀ c ∈ declared, start c.name = none
  distinct : (declared.map WaitingConstant.name).Nodup
  keeps : start.Within s
  only : ∀ name v, s name = some v →
    start name = some v ∨ name ∈ declared.map WaitingConstant.name
  least : ∀ t, start.Within t → Closed declared t → s.Within t

/-- The values that all of the definitions give to names. -/
def Solution (defs : List WaitingConstant) (s : SymbolSource) : Prop := Grown (fun _ => none) defs s

variable {start s t : SymbolSource} {declared : List WaitingConstant} {c : WaitingConstant}

theorem Grown.nil (start : SymbolSource) : Grown start [] start :=
  ⟨by simp, by simp, by simp, .refl _, fun _ _ h => .inl h, fun _ h _ => h⟩

/-- A new name changes no value that is known. -/
theorem within_of_new {name : String} {v : Int64} (hnew : s name = none)
    (ht : ∀ n, t n = if n = name then some v else s n) : s.Within t := by
  intro n u hu
  rw [ht, if_neg, hu]
  rintro rfl
  rw [hnew] at hu
  simp at hu

/-- One more constant gives its name a value. -/
theorem Grown.declare (h : Grown start declared s) {v : Int64}
    (hv : c.value.eval s c.here = .ok (.known v)) (hnew : s c.name = none)
    (ht : ∀ name, t name = if name = c.name then some v else s name) :
    Grown start (c :: declared) t := by
  have hwithin : s.Within t := within_of_new hnew ht
  have hname : c.name ∉ declared.map WaitingConstant.name := by
    intro hmem
    obtain ⟨d, hd, hdc⟩ := List.mem_map.1 hmem
    obtain ⟨u, _, hu⟩ := h.holds d hd
    rw [hdc, hnew] at hu
    simp at hu
  refine ⟨?_, ?_, List.nodup_cons.2 ⟨hname, h.distinct⟩, h.keeps.trans hwithin, ?_, ?_⟩
  · refine List.forall_mem_cons.2 ⟨⟨v, Expr.eval_of_known hwithin hv, ?_⟩, ?_⟩
    · rw [ht, if_pos rfl]
    · exact fun d hd => (h.holds d hd).mono hwithin
  · refine List.forall_mem_cons.2 ⟨?_, h.fresh⟩
    cases hstart : start c.name with
    | none => rfl
    | some u => rw [h.keeps _ u hstart] at hnew; simp at hnew
  · intro name u hu
    rw [ht] at hu
    split at hu
    · rename_i heq
      exact .inr (heq ▸ .head _)
    · exact (h.only name u hu).imp_right (List.mem_cons_of_mem _)
  · -- Values that agree with all constants agree with the earlier ones, so they know what this
    -- constant needs.
    intro values hstart hclosed name u hu
    have hearlier : s.Within values :=
      h.least values hstart fun d hd => hclosed d (.tail _ hd)
    rw [ht] at hu
    split at hu
    · rename_i heq
      rw [heq, ← hu]
      exact hclosed c (.head _) v (Expr.eval_of_known hearlier hv)
    · exact hearlier name u hu

/-- The order of definitions does not matter. -/
theorem Grown.of_perm {others : List WaitingConstant} (h : Grown start declared s)
    (hperm : declared.Perm others) : Grown start others s where
  holds c hc := h.holds c (hperm.mem_iff.2 hc)
  fresh c hc := h.fresh c (hperm.mem_iff.2 hc)
  distinct := (hperm.map _).nodup_iff.1 h.distinct
  keeps := h.keeps
  only name v hv := (h.only name v hv).imp_right (hperm.map _).mem_iff.1
  least t hstart ht := h.least t hstart fun c hc => ht c (hperm.mem_iff.1 hc)

theorem Grown.closed (h : Grown start declared s) : Closed declared s := by
  intro c hc v hv
  obtain ⟨u, hu, hname⟩ := h.holds c hc
  rw [hu, Except.ok.injEq, Value.known.injEq] at hv
  rw [hname, hv]

theorem Within.antisymm (hst : s.Within t) (hts : t.Within s) : s = t := by
  funext name
  cases hs : s name with
  | some v => exact (hst name v hs).symm
  | none =>
    cases ht : t name with
    | none => rfl
    | some v => rw [hts name v ht] at hs; simp at hs

/-- There is at most one solution. -/
theorem Solution.unique {defs : List WaitingConstant} (hs : Solution defs s) (ht : Solution defs t) :
    s = t :=
  Within.antisymm (hs.least t ht.keeps ht.closed) (ht.least s hs.keeps hs.closed)

end SymbolSource

/-! ## Trying a definition -/

namespace Symbols

open SymbolSource

/-- What comes of trying one definition: nothing yet, if it lacks a name. -/
def attempt (s : Symbols) (c : WaitingConstant) : Except AssembleFault (Option Symbols) :=
  match c.value.eval s.source c.here with
  | .ok (.known value) => (s.declare c.name value).map some
  | .ok (.deferred _) => .ok none
  | .error fault => .error (.eval fault)

theorem Round.step_eq (r : Round) (c : WaitingConstant) :
    r.step c = match r.symbols.attempt c with
      | .ok (some symbols) => { r with symbols }
      | .ok none => { r with waiting := r.waiting ++ [c] }
      | .error fault => { r with complaints := r.complaints ++ [⟨c.position, fault⟩] } := by
  unfold step attempt
  rcases c.value.eval r.symbols.source c.here with fault | (v | name)
  · rfl
  · cases hdeclare : r.symbols.declare c.name v <;> simp only [hdeclare, Except.map]
  · rfl

theorem source_eq_none_iff {s : Symbols} {name : String} :
    s.source name = none ↔ s.values.contains name = false := by
  rw [source_def, Dictionary.contains]
  cases s.values.find? name <;> simp

variable {s t : Symbols} {c : WaitingConstant}

/-- A definition that gets its value: the name is new, and nothing else changes. -/
theorem of_attempt_some (hattempt : s.attempt c = .ok (some t)) :
    ∃ v, c.value.eval s.source c.here = .ok (.known v) ∧ s.source c.name = none ∧
      ∀ name, t.source name = if name = c.name then some v else s.source name := by
  unfold attempt at hattempt
  split at hattempt
  · rename_i v hv
    obtain ⟨u, hdeclare, hu⟩ := Except.map_eq_ok_iff.1 hattempt
    obtain rfl := Option.some.inj hu
    -- A name is not declared twice.
    have hnew : s.source c.name = none := by
      rw [source_eq_none_iff, ← Bool.not_eq_true]
      intro hhas
      simp [declare, hhas] at hdeclare
    exact ⟨v, hv, hnew, source_of_declare hdeclare⟩
  · simp at hattempt
  · simp at hattempt

theorem eval_of_attempt_none (hattempt : s.attempt c = .ok none) :
    ∃ name, c.value.eval s.source c.here = .ok (.deferred name) := by
  unfold attempt at hattempt
  split at hattempt
  · obtain ⟨u, _, hu⟩ := Except.map_eq_ok_iff.1 hattempt
    simp at hu
  · rename_i name hname
    exact ⟨name, hname⟩
  · simp at hattempt

/-- What is said of a constant that gets no value, by what its expression comes to. -/
def refusal (s : Symbols) (c : WaitingConstant) : AssembleFault :=
  match c.value.eval s.source c.here with
  | .ok (.known _) => .duplicateSymbol c.name
  | .ok (.deferred name) => .unresolvedSymbol name (s.firstUse? name)
  | .error fault => .eval fault

/-- The complaint about a constant that gets no value. -/
def refuse (s : Symbols) (c : WaitingConstant) : Complaint := ⟨c.position, s.refusal c⟩

/-- A constant that can get no value any more: its expression fails, or has a value when the name is
    taken. -/
def Decided (s : Symbols) (c : WaitingConstant) : Prop :=
  (∃ fault, c.value.eval s.source c.here = .error fault) ∨
    ∃ v, c.value.eval s.source c.here = .ok (.known v) ∧ (s.source c.name).isSome

/-- More names change nothing about such a constant. -/
theorem Decided.mono (h : s.Decided c) (hc : c.value.WellFormed) (hst : s.source.Within t.source) :
    t.Decided c ∧ t.refuse c = s.refuse c := by
  rcases h with ⟨fault, hfault⟩ | ⟨v, hv, htaken⟩
  · have hfault' := Expr.eval_of_fault hc hst hfault
    exact ⟨.inl ⟨fault, hfault'⟩, by simp only [refuse, refusal, hfault, hfault']⟩
  · have hv' := Expr.eval_of_known hst hv
    obtain ⟨u, hu⟩ := Option.isSome_iff_exists.1 htaken
    refine ⟨.inr ⟨v, hv', by rw [hst _ u hu]; rfl⟩, by simp only [refuse, refusal, hv, hv']⟩

/-- A definition that goes wrong. -/
theorem of_attempt_error {fault : AssembleFault} (h : s.attempt c = .error fault) :
    s.Decided c ∧ s.refusal c = fault := by
  unfold attempt at h
  split at h
  · rename_i v hv
    unfold declare at h
    split at h
    · rename_i htaken
      refine ⟨.inr ⟨v, hv, htaken⟩, ?_⟩
      simp only [refusal, hv]
      exact Except.error.inj h
    · simp [Except.map] at h
  · simp at h
  · rename_i hfault
    refine ⟨.inl ⟨_, hfault⟩, ?_⟩
    simp only [refusal, hfault]
    exact Except.error.inj h

/-- A constant that waits to the end is refused. -/
theorem complaint?_of_attempt_none (h : s.attempt c = .ok none) :
    s.complaint? c = some (s.refuse c) := by
  obtain ⟨name, hname⟩ := eval_of_attempt_none h
  simp only [complaint?, resolve, Expr.resolve, hname, Except.mapError, evalFault, refuse, refusal]

/-! ## Rounds -/

/-- Constants under way: those that got their values, those that are refused, those that wait, and
    those still to be tried are all there are.  Complaints may have been made before the round. -/
structure Underway (start : Symbols) (all : List WaitingConstant) (earlier : List Complaint)
    (r : Round) (rest declared refused : List WaitingConstant) : Prop where
  shares : (declared ++ refused ++ r.waiting ++ rest).Perm all
  values : Grown start.source declared r.symbols.source
  said : earlier ++ r.complaints = refused.map r.symbols.refuse
  decided : ∀ c ∈ refused, r.symbols.Decided c

variable {start : Symbols} {all rest declared refused waiting : List WaitingConstant} {r : Round}
  {complaints earlier : List Complaint}

/-- What is said of constants stays true when more names become known. -/
theorem map_refuse_of_within (hvalues : ∀ c ∈ refused, c.value.WellFormed)
    (hdecided : ∀ c ∈ refused, s.Decided c) (hst : s.source.Within t.source) :
    refused.map t.refuse = refused.map s.refuse ∧ ∀ c ∈ refused, t.Decided c :=
  ⟨List.map_congr_left fun c hc => ((hdecided c hc).mono (hvalues c hc) hst).2,
    fun c hc => ((hdecided c hc).mono (hvalues c hc) hst).1⟩

/-- Nothing changes but what is known of names beside their values. -/
theorem Underway.of_source (h : Underway start all earlier r rest declared refused)
    (hvalues : ∀ c ∈ all, c.value.WellFormed) (ht : r.symbols.source = t.source) :
    Underway start all earlier { r with symbols := t } rest declared refused := by
  obtain ⟨hsaid, hdecided⟩ := map_refuse_of_within (t := t)
    (fun c hc => hvalues c (h.shares.mem_iff.1 (by simp [hc]))) h.decided (ht ▸ .refl _)
  exact ⟨h.shares, ht ▸ h.values, h.said.trans hsaid.symm, hdecided⟩

/-- Trying one constant. -/
theorem Underway.step (h : Underway start all earlier r (c :: rest) declared refused)
    (hvalues : ∀ c ∈ all, c.value.WellFormed) :
    ∃ declared refused, Underway start all earlier (r.step c) rest declared refused := by
  have hrefused : ∀ d ∈ refused, d.value.WellFormed := fun d hd =>
    hvalues d (h.shares.mem_iff.1 (by simp [hd]))
  rw [Round.step_eq]
  rcases hattempt : r.symbols.attempt c with fault | (_ | symbols)
  · obtain ⟨hdecided, hfault⟩ := of_attempt_error hattempt
    refine ⟨declared, refused ++ [c], ?_, h.values, ?_, ?_⟩
    · refine List.Perm.trans ?_ h.shares
      simpa using (List.perm_middle.symm.append_left refused).append_left declared
    · simp only [← List.append_assoc, h.said, List.map_append, List.map_singleton, refuse, hfault]
    · exact List.forall_mem_append.2 ⟨h.decided, List.forall_mem_singleton.2 hdecided⟩
  · exact ⟨declared, refused, by simpa using h.shares, h.values, h.said, h.decided⟩
  · obtain ⟨v, hv, hnew, ht⟩ := of_attempt_some hattempt
    obtain ⟨hsaid, hdecided⟩ := map_refuse_of_within hrefused h.decided (within_of_new hnew ht)
    refine ⟨c :: declared, refused, ?_, h.values.declare hv hnew ht, h.said.trans hsaid.symm, hdecided⟩
    exact List.perm_middle.symm.trans h.shares

/-- Trying constants one after the other. -/
theorem Underway.foldl (h : Underway start all earlier r rest declared refused)
    (hvalues : ∀ c ∈ all, c.value.WellFormed) :
    ∃ declared refused, Underway start all earlier (rest.foldl Round.step r) [] declared refused := by
  induction rest generalizing r declared refused with
  | nil => exact ⟨declared, refused, h⟩
  | cons c rest ih =>
    obtain ⟨declared, refused, hstep⟩ := h.step hvalues
    exact ih hstep

/-- What waits may be tried again. -/
theorem Underway.again (h : Underway start all earlier r [] declared refused) :
    Underway start all earlier { symbols := r.symbols, complaints := r.complaints } r.waiting declared
      refused :=
  ⟨by simpa using h.shares, h.values, h.said, h.decided⟩

/-- After a round at most what was tried waits.  If all of that waits, nothing has changed. -/
theorem Round.length_waiting_foldl (r : Round) (rest : List WaitingConstant) :
    (rest.foldl Round.step r).waiting.length ≤ r.waiting.length + rest.length ∧
      ((rest.foldl Round.step r).waiting.length = r.waiting.length + rest.length →
        (rest.foldl Round.step r).symbols = r.symbols ∧
          (rest.foldl Round.step r).waiting = r.waiting ++ rest ∧
          ∀ c ∈ rest, r.symbols.attempt c = .ok none) := by
  induction rest generalizing r with
  | nil => simp
  | cons c rest ih =>
    obtain ⟨hle, hall⟩ := ih (r.step c)
    rw [List.foldl_cons, List.length_cons]
    rw [Round.step_eq] at hle hall ⊢
    rcases hattempt : r.symbols.attempt c with fault | (_ | symbols)
    · simp only [hattempt] at hle hall ⊢
      exact ⟨by omega, fun h => by omega⟩
    · simp only [hattempt, List.length_append, List.length_singleton] at hle hall ⊢
      refine ⟨by omega, fun h => ?_⟩
      obtain ⟨hsymbols, hwaiting, hrest⟩ := hall (by omega)
      exact ⟨hsymbols, by rw [hwaiting, List.append_assoc, List.singleton_append],
        List.forall_mem_cons.2 ⟨hattempt, hrest⟩⟩
    · simp only [hattempt] at hle hall ⊢
      exact ⟨by omega, fun h => by omega⟩

/-- A round that leaves all constants waiting leaves everything as it was. -/
theorem round_of_stuck (h : ¬ (s.round waiting complaints).waiting.length < waiting.length) :
    (s.round waiting complaints).symbols = s ∧ (s.round waiting complaints).waiting = waiting ∧
      ∀ c ∈ waiting, s.attempt c = .ok none := by
  have hround := Round.length_waiting_foldl { symbols := s, complaints } waiting
  simp only [List.length_nil, Nat.zero_add, List.nil_append] at hround
  exact hround.2 (Nat.le_antisymm hround.1 (Nat.not_lt.1 h))

/-! ## Settling -/

/-- How constants come out: each one gives its name a value or is refused.  One that is refused
    although its expression has a value has a name that is taken. -/
structure Accounts (start final : Symbols) (waiting declared refused : List WaitingConstant) :
    Prop where
  shares : (declared ++ refused).Perm waiting
  values : Grown start.source declared final.source
  taken : ∀ c ∈ refused, ∀ v, c.value.eval final.source c.here = .ok (.known v) →
    (final.source c.name).isSome

/-- Each constant gets its value or is refused. -/
theorem Underway.settleFrom (earlier : List Complaint) (hvalues : ∀ c ∈ all, c.value.WellFormed)
    (h : ∃ declared refused,
      Underway start all earlier { symbols := s, complaints } waiting declared refused) :
    ∃ declared refused, Accounts start (s.settleFrom waiting complaints).1 all declared refused ∧
      earlier ++ (s.settleFrom waiting complaints).2 =
        refused.map (s.settleFrom waiting complaints).1.refuse := by
  induction s, waiting, complaints using settleFrom.induct with
  | case1 s waiting complaints r hless ih =>
    obtain ⟨_, _, hbefore⟩ := h
    obtain ⟨declared, refused, hround⟩ := hbefore.foldl hvalues
    rw [Symbols.settleFrom, if_pos hless]
    exact ih ⟨declared, refused, hround.again⟩
  | case2 s waiting complaints r hstuck =>
    obtain ⟨_, _, hbefore⟩ := h
    obtain ⟨declared, refused, hround⟩ := hbefore.foldl hvalues
    have hsame : r.symbols = s ∧ r.waiting = waiting ∧ ∀ c ∈ waiting, s.attempt c = .ok none :=
      round_of_stuck hstuck
    obtain ⟨hsymbols, hwaiting, hnone⟩ := hsame
    have hleft : r.waiting.filterMap r.symbols.complaint? = r.waiting.map r.symbols.refuse := by
      rw [← List.filterMap_eq_map]
      refine List.filterMap_congr fun c hc => ?_
      rw [hwaiting] at hc
      rw [hsymbols]
      exact complaint?_of_attempt_none (hnone c hc)
    have hsaid : earlier ++ r.complaints = refused.map r.symbols.refuse := hround.said
    rw [Symbols.settleFrom, if_neg hstuck]
    refine ⟨declared, refused ++ r.waiting, ⟨?_, hround.values, ?_⟩, ?_⟩
    · have hshares : (declared ++ refused ++ r.waiting ++ []).Perm all := hround.shares
      simpa using hshares
    · refine List.forall_mem_append.2 ⟨fun c hc v hv => ?_, fun c hc v hv => ?_⟩
      · rcases hround.decided c hc with ⟨fault, hfault⟩ | ⟨_, _, htaken⟩
        · exact absurd (hv.symm.trans hfault) (by simp)
        · exact htaken
      · -- What waits has no value.
        rw [hwaiting] at hc
        obtain ⟨name, hname⟩ := eval_of_attempt_none (hnone c hc)
        rw [← hsymbols] at hname
        exact absurd (hv.symm.trans hname) (by simp)
    · show earlier ++ (r.complaints ++ r.waiting.filterMap r.symbols.complaint?) = _
      rw [hleft, ← List.append_assoc, hsaid, List.map_append]

/-! ## Constants with new names -/

section Distinct

variable {final : Symbols} (h : Accounts start final waiting declared refused)
  (hdistinct : (waiting.map WaitingConstant.name).Nodup)
  (hfresh : ∀ c ∈ waiting, start.source c.name = none)

include h hdistinct hfresh

/-- No name is taken, so what is refused has no value. -/
theorem Accounts.ne_known (hc : c ∈ refused) (v : Int64) :
    c.value.eval final.source c.here ≠ .ok (.known v) := by
  intro hv
  obtain ⟨u, hu⟩ := Option.isSome_iff_exists.1 (h.taken c hc v hv)
  rcases h.values.only c.name u hu with hstart | hdeclared
  · rw [hfresh c (h.shares.mem_iff.1 (by simp [hc]))] at hstart
    simp at hstart
  · have hnodup := (h.shares.map WaitingConstant.name).nodup_iff.2 hdistinct
    rw [List.map_append, List.nodup_append] at hnodup
    exact hnodup.2.2 _ hdeclared _ (List.mem_map_of_mem hc) rfl

/-- A constant gets a value if and only if its expression has one in the end. -/
theorem Accounts.mem_refused_iff :
    c ∈ refused ↔ c ∈ waiting ∧ ∀ v, c.value.eval final.source c.here ≠ .ok (.known v) := by
  constructor
  · exact fun hc => ⟨h.shares.mem_iff.1 (by simp [hc]), h.ne_known hdistinct hfresh hc⟩
  · rintro ⟨hc, hne⟩
    rcases List.mem_append.1 (h.shares.mem_iff.2 hc) with hdeclared | hrefused
    · obtain ⟨v, hv, _⟩ := h.values.holds c hdeclared
      exact absurd hv (hne v)
    · exact hrefused

/-- The values agree with all constants. -/
theorem Accounts.closed : Closed waiting final.source := by
  intro c hc v hv
  rcases List.mem_append.1 (h.shares.mem_iff.2 hc) with hdeclared | hrefused
  · exact h.values.closed c hdeclared v hv
  · exact absurd hv (h.ne_known hdistinct hfresh hrefused v)

omit hdistinct hfresh in
/-- They are the least ones that do. -/
theorem Accounts.least {values : SymbolSource} (hstart : start.source.Within values)
    (hclosed : Closed waiting values) : final.source.Within values :=
  h.values.least values hstart fun c hc => hclosed c (h.shares.mem_iff.1 (by simp [hc]))

/-- In another order the same values come out, and the same constants are refused. -/
theorem Accounts.perm {others declared' refused' : List WaitingConstant} {final' : Symbols}
    (h' : Accounts start final' others declared' refused') (hperm : others.Perm waiting) :
    final'.source = final.source ∧ refused'.Perm refused := by
  have hdistinct' := (hperm.map WaitingConstant.name).nodup_iff.2 hdistinct
  have hfresh' : ∀ c ∈ others, start.source c.name = none := fun c hc =>
    hfresh c (hperm.mem_iff.1 hc)
  have hclosed : Closed others final.source := fun c hc =>
    h.closed hdistinct hfresh c (hperm.mem_iff.1 hc)
  have hclosed' : Closed waiting final'.source := fun c hc =>
    h'.closed hdistinct' hfresh' c (hperm.mem_iff.2 hc)
  -- Each of the two is least.
  have hsource : final'.source = final.source :=
    Within.antisymm (h'.least h.values.keeps hclosed) (h.least h'.values.keeps hclosed')
  refine ⟨hsource, ?_⟩
  have hnodup : refused.Nodup :=
    (List.nodup_append.1 (h.shares.nodup_iff.2 hdistinct.of_map)).2.1
  have hnodup' : refused'.Nodup :=
    (List.nodup_append.1 (h'.shares.nodup_iff.2 hdistinct'.of_map)).2.1
  rw [List.perm_ext_iff_of_nodup hnodup' hnodup]
  intro c
  rw [h.mem_refused_iff hdistinct hfresh, h'.mem_refused_iff hdistinct' hfresh', hsource,
    hperm.mem_iff]

end Distinct

/-- If there is a solution, no definition is refused. -/
theorem Accounts.refused_eq_nil {final : Symbols} {values : SymbolSource}
    (h : Accounts {} final waiting declared refused) (hvalues : Solution waiting values) :
    refused = [] := by
  have hfresh : ∀ c ∈ waiting, ({} : Symbols).source c.name = none := fun _ _ => rfl
  refine List.eq_nil_iff_forall_not_mem.2 fun c hc => ?_
  -- What has a value in the solution has it in the end, since the solution is least.
  obtain ⟨v, hv, _⟩ := hvalues.holds c (h.shares.mem_iff.1 (by simp [hc]))
  have hwithin := hvalues.least _ h.values.keeps (h.closed hvalues.distinct hfresh)
  exact h.ne_known hvalues.distinct hfresh hc v (Expr.eval_of_known hwithin hv)

end Symbols

end CartScript
