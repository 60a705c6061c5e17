import CartScript.Proofs.Registry.Reached
import Mathlib.Algebra.Group.Int.Defs
import Mathlib.Algebra.Group.Nat.Defs

/-!
# Registries from definition files

What a loaded registry promises about its codes.  Records are checked line by line, a code is
checked together with its parameters when its last line is read, and a code enters the registry only
if no other code of its name shares a game with it.
-/

namespace CartScript

/-! ## Promises -/

/-- A parameter as a record may declare it. -/
structure Param.Proper (p : Param) : Prop where
  length_pos : 1 ≤ p.length
  width : Record.widthFits p.kind p.length = true
  element : 1 ≤ p.kind.element ∧ p.kind.element ≤ 8
  array : ∀ count signed hex, p.kind = .array count signed hex → 1 ≤ count ∧ p.length % count = 0

/-- A code whose parts fit together. -/
structure Code.WellFormed (c : Code) : Prop where
  name : Text.isName c.name.toList = true
  length_pos : 1 ≤ c.length
  idLength_le : c.idLength ≤ c.length
  idFits : Pending.idFits c = true
  proper : ∀ p ∈ c.params, p.Proper
  after_id : ∀ p ∈ c.params, c.idLength ≤ p.offset
  stop_le : ∀ p ∈ c.params, p.stop ≤ c.length
  apart : c.params.Pairwise fun p q => p.overlaps q = false
  names : c.params.Pairwise fun p q => p.name ≠ q.name

/-- Well-formed codes in their places, no two of which have a name and a game in common. -/
structure Registry.WellFormed (r : Registry) : Prop where
  codes : ∀ i c, r.at? i = some c → c.WellFormed ∧ c.index = i
  distinct : ∀ i j c d, i < j → r.at? i = some c → r.at? j = some d → c.name = d.name →
    c.sharesGame d = false
  tabled : r.Tabled

/-- Registries that definition files give. -/
inductive Registry.Loaded : Registry → Prop
  | text {tree : FileTree} {name text : String} {r : Registry}
      (h : Registry.loadText tree name text = .ok r) : Registry.Loaded r
  | file {tree : FileTree} {path : Path} {r : Registry}
      (h : Registry.loadFile tree path = .ok r) : Registry.Loaded r
  | directory {tree : FileTree} {directory : Path} {extension : String} {r : Registry}
      (h : Registry.loadDirectory tree directory extension = .ok r) : Registry.Loaded r

/-! ## Records -/

/-- How many values a list of them has. -/
def FieldKind.count? : FieldKind → Option Nat
  | .array count _ _ => some count
  | _ => none

namespace Record

variable {flags flags' : ParamFlags} {idText name text : List Char}
  {lengthText? : Option (List Char)} {file : String} {length line : Nat} {flag : Flag} {p : Pending}

/-- A kind can be set where there is none yet. -/
theorem ParamFlags.setKind_eq_ok {kind : FieldKind} (h : flags.setKind kind = .ok flags') :
    flags.kind? = none ∧ flags' = { flags with kind? := some kind } := by
  obtain ⟨hnone, h⟩ := Except.ite_error_eq_ok_iff.1 h
  exact ⟨by simpa using hnone, (Except.ok.inj h).symm⟩

/-- What the flags of a parameter do: two of them hold numbers, and others set a kind. -/
theorem paramFlag_cases (h : paramFlag length flags flag = .ok flags') :
    (flag.key = "element" ∧ ∃ n, size "element width" flag.value = .ok n ∧
      flags' = { flags with element := n }) ∨
    (flag.key = "coordinates" ∧ ∃ count, size "coordinate count" flag.value = .ok count ∧
      1 ≤ count ∧ length % count = 0 ∧ flags.kind? = none ∧
      flags' = { flags with kind? := some (.array count false false) }) ∨
    (flag.key ≠ "element" ∧ flag.key ≠ "coordinates" ∧ flags'.element = flags.element ∧
      (flags'.kind? = flags.kind? ∨
        ∃ kind : FieldKind, kind.count? = none ∧ flags.kind? = none ∧ flags'.kind? = some kind)) := by
  have hset {kind : FieldKind} (hcount : kind.count? = none) (h : flags.setKind kind = .ok flags') :
      flags'.element = flags.element ∧ (flags'.kind? = flags.kind? ∨
        ∃ kind : FieldKind, kind.count? = none ∧ flags.kind? = none ∧ flags'.kind? = some kind) := by
    obtain ⟨hnone, rfl⟩ := ParamFlags.setKind_eq_ok h
    exact ⟨rfl, .inr ⟨kind, hcount, hnone, rfl⟩⟩
  unfold Record.paramFlag at h
  split at h
  · rename_i hkey
    obtain rfl := Except.ok.inj h
    exact .inr (.inr ⟨by simp [hkey], by simp [hkey], rfl, .inl rfl⟩)
  · rename_i hkey
    obtain rfl := Except.ok.inj h
    exact .inr (.inr ⟨by simp [hkey], by simp [hkey], rfl, .inl rfl⟩)
  · obtain ⟨n, hn, h⟩ := Except.bind_eq_ok_iff.1 h
    exact .inl ⟨by assumption, n, hn, (Except.ok.inj h).symm⟩
  · rename_i hkey
    exact .inr (.inr ⟨by simp [hkey], by simp [hkey], hset rfl h⟩)
  · rename_i hkey
    split at h
    · exact .inr (.inr ⟨by simp [hkey], by simp [hkey], hset rfl h⟩)
    · simp at h
  · rename_i hkey
    exact .inr (.inr ⟨by simp [hkey], by simp [hkey], hset rfl h⟩)
  · obtain ⟨count, hcount, h⟩ := Except.bind_eq_ok_iff.1 h
    obtain ⟨hdivides, h⟩ := Except.ite_error_eq_ok_iff.1 h
    obtain ⟨hnone, rfl⟩ := ParamFlags.setKind_eq_ok h
    exact .inr (.inl ⟨by assumption, count, hcount, by omega, by omega, hnone, rfl⟩)
  · simp at h

/-- What the flags of a parameter have been checked for. -/
def ParamFlags.Checked (length : Nat) (flags : ParamFlags) : Prop :=
  ∀ count signed hex, flags.kind? = some (.array count signed hex) →
    1 ≤ count ∧ length % count = 0

theorem ParamFlags.Checked.paramFlag (hflags : flags.Checked length)
    (h : paramFlag length flags flag = .ok flags') : flags'.Checked length := by
  intro n signed hex hkind
  rcases paramFlag_cases h with ⟨-, m, -, rfl⟩ | ⟨-, count, -, hpos, heven, -, rfl⟩ |
    ⟨-, -, -, hsame | ⟨kind, hcount, -, hnew⟩⟩
  · exact hflags n signed hex hkind
  · -- The count was checked against the length before the kind was set.
    cases hkind
    exact ⟨hpos, heven⟩
  · exact hflags n signed hex (hsame ▸ hkind)
  · rw [hnew] at hkind
    cases hkind
    simp [FieldKind.count?] at hcount

/-- The kind of checked flags: the width of its elements is the one that was asked for, and a list of
    values divides the parameter evenly. -/
theorem ParamFlags.Checked.kind (hflags : flags.Checked length)
    (helement : ¬ (flags.element < 1 ∨ 8 < flags.element)) :
    (1 ≤ flags.kind.element ∧ flags.kind.element ≤ 8) ∧
      ∀ count signed hex, flags.kind = .array count signed hex → 1 ≤ count ∧ length % count = 0 := by
  unfold ParamFlags.kind
  split
  · exact ⟨by simp [FieldKind.element], by simp⟩
  · rename_i count _ _ hk
    refine ⟨by simp [FieldKind.element], ?_⟩
    rintro _ _ _ ⟨rfl, rfl, rfl⟩
    exact hflags _ _ _ hk
  · exact ⟨by simp only [FieldKind.element]; omega, by simp⟩
  · exact ⟨by simp only [FieldKind.element]; omega, by simp⟩
  · rename_i kind hint hpointer hstruct hk
    cases kind with
    | int signed hex | text => exact ⟨by simp [FieldKind.element], by simp⟩
    | array count signed hex => exact absurd rfl (hint count signed hex)
    | pointer element => exact absurd rfl (hpointer element)
    | struct group element => exact absurd rfl (hstruct group element)

/-- What a parameter is made of. -/
theorem param_eq_ok {p : Param} (h : Record.param text = .ok p) :
    ∃ name offsetText lengthText flags, (ofLine text).values = [name, offsetText, lengthText] ∧
      size "position" offsetText = .ok p.offset ∧ size "length" lengthText = .ok p.length ∧
      p.length ≠ 0 ∧
      ((ofLine text).flags.map Flag.ofText).foldlM (paramFlag p.length) {} = .ok flags ∧
      ¬ (flags.element < 1 ∨ 8 < flags.element) ∧ widthFits flags.kind p.length = true ∧
      p.name = String.ofList name ∧ p.kind = flags.kind := by
  simp only [Record.param] at h
  split at h
  · rename_i name offsetText lengthText hvalues
    obtain ⟨-, h⟩ := Except.ite_error_eq_ok_iff.1 h
    obtain ⟨offset, hoffset, h⟩ := Except.bind_eq_ok_iff.1 h
    obtain ⟨length, hlength, h⟩ := Except.bind_eq_ok_iff.1 h
    obtain ⟨hpos, h⟩ := Except.ite_error_eq_ok_iff.1 h
    obtain ⟨flags, hflags, h⟩ := Except.bind_eq_ok_iff.1 h
    obtain ⟨helement, h⟩ := Except.ite_error_eq_ok_iff.1 h
    obtain ⟨hwidth, h⟩ := Except.ite_error_eq_ok_iff.1 h
    obtain rfl := Except.ok.inj h
    exact ⟨name, offsetText, lengthText, flags, hvalues, hoffset, hlength, hpos, hflags, helement,
      by simpa using hwidth, rfl, rfl⟩
  · simp at h

theorem proper_of_param {p : Param} (h : Record.param text = .ok p) : p.Proper := by
  obtain ⟨-, -, -, flags, -, -, -, hpos, hflags, helement, hwidth, -, hkind⟩ := param_eq_ok h
  -- The flags are taken one after the other, and each of them keeps what was checked.
  have hchecked : flags.Checked p.length :=
    Except.foldlM_induction (ParamFlags.Checked p.length) (fun _ _ _ hb hf => hb.paramFlag hf)
      (by intro _ _ _ hk; simp at hk) hflags
  obtain ⟨hbounds, harray⟩ := hchecked.kind helement
  rw [← hkind] at hwidth hbounds harray
  exact ⟨Nat.one_le_iff_ne_zero.2 hpos, hwidth, hbounds, harray⟩

/-- What the flags of a code do: three of them hold numbers. -/
theorem codeFlag_cases {code code' : Code} (h : codeFlag code flag = .ok code') :
    (flag.key = "priority" ∧ ∃ n, number "priority" flag.value = .ok n ∧ -2 ^ 31 ≤ n.toInt ∧
      n.toInt < 2 ^ 31 ∧ code' = { code with priority := n.toInt }) ∨
    (flag.key = "idLength" ∧ ∃ n, size "id length" flag.value = .ok n ∧
      code' = { code with idLength := n }) ∨
    (flag.key = "align" ∧ ∃ n, size "alignment" flag.value = .ok n ∧ n ≠ 0 ∧
      code' = { code with align := UInt32.ofNat n }) ∨
    (flag.key ∉ ["priority", "idLength", "align"] ∧
      ∃ group games terminates listed, code' = { code with group, games, terminates, listed }) := by
  simp only [codeFlag] at h
  split at h
  · obtain ⟨n, hn, h⟩ := Except.bind_eq_ok_iff.1 h
    split at h
    · rename_i hrange
      exact .inl ⟨by assumption, n, hn, hrange.1, hrange.2, (Except.ok.inj h).symm⟩
    · simp at h
  · rename_i hkey
    split at h
    · exact .inr (.inr (.inr ⟨by simp [hkey], _, _, _, _, (Except.ok.inj h).symm⟩))
    · simp at h
  · rename_i hkey
    split at h
    · simp at h
    · exact .inr (.inr (.inr ⟨by simp [hkey], _, _, _, _, (Except.ok.inj h).symm⟩))
  · rename_i hkey
    exact .inr (.inr (.inr ⟨by simp [hkey], _, _, _, _, (Except.ok.inj h).symm⟩))
  · rename_i hkey
    exact .inr (.inr (.inr ⟨by simp [hkey], _, _, _, _, (Except.ok.inj h).symm⟩))
  · obtain ⟨n, hn, h⟩ := Except.bind_eq_ok_iff.1 h
    exact .inr (.inl ⟨by assumption, n, hn, (Except.ok.inj h).symm⟩)
  · obtain ⟨n, hn, h⟩ := Except.bind_eq_ok_iff.1 h
    obtain ⟨hpos, h⟩ := Except.ite_error_eq_ok_iff.1 h
    exact .inr (.inr (.inl ⟨by assumption, n, hn, hpos, (Except.ok.inj h).symm⟩))
  · simp at h

theorem codeOf_eq_ok {flags : List (List Char)}
    (h : codeOf file line flags name idText lengthText? = .ok p) :
    Text.isName name = true ∧ p.line = line ∧ lengthText?.mapM (size "length") = .ok p.length? ∧
      ∃ id, number "id" idText = .ok id ∧ 0 ≤ id.toInt ∧ id.toInt < 2 ^ 32 ∧
        (flags.map Flag.ofText).foldlM codeFlag
          { Code.make (String.ofList name) (UInt32.ofNat id.toInt.toNat) 0 with
            origin := s!"{file}:{line}" } = .ok p.code := by
  obtain ⟨hname, h⟩ := Except.ite_error_eq_ok_iff.1 h
  obtain ⟨id, hid, h⟩ := Except.bind_eq_ok_iff.1 h
  obtain ⟨hrange, h⟩ := Except.ite_error_eq_ok_iff.1 h
  obtain ⟨length?, hlength, h⟩ := Except.bind_eq_ok_iff.1 h
  obtain ⟨code, hcode, h⟩ := Except.bind_eq_ok_iff.1 h
  obtain rfl := Except.ok.inj h
  exact ⟨by simpa using hname, rfl, hlength, id, hid, by omega, by omega, hcode⟩

/-- Flags change neither the name nor the parameters. -/
theorem codeOf_keeps {flags : List (List Char)}
    (h : codeOf file line flags name idText lengthText? = .ok p) :
    p.code.name = String.ofList name ∧ p.code.params = [] := by
  obtain ⟨-, -, -, id, -, -, -, hcode⟩ := codeOf_eq_ok h
  refine Except.foldlM_induction (fun c : Code => c.name = String.ofList name ∧ c.params = [])
    (fun c flag c' hc hf => ?_) ⟨rfl, rfl⟩ hcode
  rcases codeFlag_cases hf with ⟨-, n, -, -, -, rfl⟩ | ⟨-, n, -, rfl⟩ | ⟨-, n, -, -, rfl⟩ |
    ⟨-, group, games, terminates, listed, rfl⟩
  all_goals exact hc

/-- What a code is made of before its parameters are read. -/
theorem code_eq_ok (h : Record.code file line text = .ok p) :
    ∃ name idText lengthText?, (ofLine text).values = name :: idText :: lengthText?.toList ∧
      codeOf file line (ofLine text).flags name idText lengthText? = .ok p := by
  simp only [Record.code] at h
  split at h
  · exact ⟨_, _, none, by assumption, h⟩
  · exact ⟨_, _, some _, by assumption, h⟩
  · simp at h

end Record

/-! ## Codes with their parameters -/

namespace Pending

/-- What has been checked of a code whose parameters are still being read. -/
structure Sound (p : Pending) : Prop where
  name : Text.isName p.code.name.toList = true
  params : ∀ q ∈ p.code.params, q.Proper

theorem sound_of_declares {e : Entry} {p : Pending} (h : e.Declares p) : p.Sound := by
  induction h with
  | code h =>
    obtain ⟨name, _, _, -, hof⟩ := Record.code_eq_ok h
    obtain ⟨hkept, hparams⟩ := Record.codeOf_keeps hof
    exact ⟨by simpa [hkept] using (Record.codeOf_eq_ok hof).1, by simp [hparams]⟩
  | param _ hparam ih =>
    refine ⟨ih.name, ?_⟩
    intro q hq
    rcases List.mem_append.1 hq with hq | hq
    · exact ih.params q hq
    · obtain rfl := List.mem_singleton.1 hq
      exact Record.proper_of_param hparam

theorem checkParam_eq_ok {code : Code} {earlier : List Param} {p : Param}
    (h : checkParam code earlier p = .ok ()) :
    p.stop ≤ code.length ∧ code.idLength ≤ p.offset ∧
      ∀ q ∈ earlier, q.overlaps p = false ∧ q.name ≠ p.name := by
  obtain ⟨hstop, h⟩ := Except.ite_error_eq_ok_iff.1 h
  obtain ⟨hid, h⟩ := Except.ite_error_eq_ok_iff.1 h
  split at h
  · simp at h
  · rename_i hfind
    obtain ⟨hnames, -⟩ := Except.ite_error_eq_ok_iff.1 h
    refine ⟨by omega, by omega, ?_⟩
    intro q hq
    refine ⟨by simpa using List.find?_eq_none.1 hfind q hq, ?_⟩
    intro heq
    exact hnames (List.any_eq_true.2 ⟨q, hq, by simp [heq]⟩)

/-- Parameters that were checked in order lie in the code after its id, and any two of them are
    apart. -/
theorem checkParams_eq_ok {code : Code} {earlier later : List Param}
    (h : checkParams code earlier later = .ok ()) :
    (∀ p ∈ later, p.stop ≤ code.length ∧ code.idLength ≤ p.offset) ∧
      (∀ q ∈ earlier, ∀ p ∈ later, q.overlaps p = false ∧ q.name ≠ p.name) ∧
      later.Pairwise fun p q => p.overlaps q = false ∧ p.name ≠ q.name := by
  -- Each parameter is checked against those before it, so any two of them are compared once.
  induction later generalizing earlier with
  | nil => simp
  | cons p later ih =>
    rw [checkParams] at h
    split at h
    · simp at h
    · rename_i hp
      obtain ⟨hstop, hid, hfirst⟩ := checkParam_eq_ok hp
      obtain ⟨hin, hearlier, hpairs⟩ := ih h
      refine ⟨?_, ?_, ?_⟩
      · intro q hq
        rcases List.mem_cons.1 hq with rfl | hq
        · exact ⟨hstop, hid⟩
        · exact hin q hq
      · intro q hq r hr
        rcases List.mem_cons.1 hr with rfl | hr
        · exact hfirst q hq
        · exact hearlier q (List.mem_append_left _ hq) r hr
      · exact List.pairwise_cons.2
          ⟨fun q hq => hearlier p (List.mem_append_right _ (.head _)) q hq, hpairs⟩

/-- A finished code is well formed. -/
theorem Sound.finish {p : Pending} {c : Code} (hp : p.Sound) (h : p.finish = .ok c) :
    c.WellFormed := by
  obtain ⟨hlength, hid, hfits, hparams, rfl⟩ := finish_eq_ok h
  obtain ⟨hin, _, hpairs⟩ := checkParams_eq_ok hparams
  exact {
    name := hp.name
    length_pos := Nat.one_le_iff_ne_zero.2 hlength
    idLength_le := Nat.not_lt.1 hid
    idFits := hfits
    proper := hp.params
    after_id := fun q hq => (hin q hq).2
    stop_le := fun q hq => (hin q hq).1
    apart := hpairs.imp fun h => h.1
    names := hpairs.imp fun h => h.2 }

end Pending

/-! ## Loading -/

namespace Loader

variable {tree : FileTree} {file : String} {seen seen' : List Route} {items : List Item}
  {codes : List Code}

/-- Items that are followed to the end have no fault, and all their codes come. -/
theorem Unfolds.mem (h : Unfolds tree file seen items seen' codes) :
    (∀ line fault, .wrong line fault ∉ items) ∧
      ∀ line c, .code line c ∈ items → c.declaredIn file line ∈ codes := by
  induction h with
  | nil => simp
  | code _ ih =>
    refine ⟨by simpa using ih.1, fun line c hc => ?_⟩
    rcases List.mem_cons.1 hc with heq | hc
    · cases heq
      exact .head _
    · exact .tail _ (ih.2 line c hc)
  | again _ _ _ ih => simpa using ih
  | first _ _ _ _ _ _ ih =>
    exact ⟨by simpa using ih.1, by simpa using fun line c hc => .inr (ih.2 line c hc)⟩

/-- The codes of a text are well formed. -/
theorem wellFormed_of_mem_outline {base : Path} {text : String}
    (hfine : ∀ line fault, .wrong line fault ∉ outline base text) {line : Nat} {c : Code}
    (hc : .code line c ∈ outline base text) : c.WellFormed := by
  obtain ⟨e, p, hdeclares, -, hfinish⟩ := (makes_outline hfine).2 line c hc
  exact (Pending.sound_of_declares hdeclares).finish hfinish

/-- Codes that come from texts are well formed. -/
theorem Unfolds.wellFormed (h : Unfolds tree file seen items seen' codes)
    (hitems : ∀ line c, .code line c ∈ items → c.WellFormed) : ∀ c ∈ codes, c.WellFormed := by
  induction h with
  | nil => simp
  | code _ ih =>
    refine List.forall_mem_cons.2 ⟨{ hitems _ _ (.head _) with }, ih ?_⟩
    exact fun line c hc => hitems line c (.tail _ hc)
  | again _ _ _ ih => exact ih fun line c hc => hitems line c (.tail _ hc)
  | first _ _ _ hinner _ ihinner ih =>
    refine List.forall_mem_append.2 ⟨ihinner ?_, ih ?_⟩
    · exact fun line c hc => wellFormed_of_mem_outline hinner.mem.1 hc
    · exact fun line c hc => hitems line c (.tail _ hc)

/-- What is not a text has only includes. -/
theorem Source.mem_items {source : Source} (h : source.items tree = .ok items) {line : Nat} {c : Code}
    (hc : .code line c ∈ items) : ∃ name text, source = .text name text := by
  cases source with
  | text name text => exact ⟨name, text, rfl⟩
  | file path =>
    obtain rfl := Except.ok.inj h
    simp at hc
  | directory path extension =>
    rw [Source.items] at h
    split at h
    · simp at h
    · split at h
      · simp at h
      · obtain rfl := Except.ok.inj h
        simp at hc

end Loader

namespace Registry

theorem WellFormed.consistent {r : Registry} (hr : r.WellFormed) : r.Consistent :=
  ⟨fun i c hc => (hr.codes i c hc).2, hr.distinct, hr.tabled⟩

theorem wellFormed_of_load {tree : FileTree} (source : Loader.Source) {r : Registry}
    (h : source.load tree = .ok r) : r.WellFormed := by
  cases hitems : source.items tree with
  | error fault => simp [Loader.Source.load_eq_error hitems] at h
  | ok items =>
    rcases Loader.Source.load_cases hitems with ⟨files, codes, hok, -, hunfolds, hcons⟩ |
      ⟨fault, _, herror, -⟩
    · obtain rfl := Except.ok.inj (h.symm.trans hok)
      have hcodes := hunfolds.wellFormed fun line c hc => by
        obtain ⟨name, text, rfl⟩ := Loader.Source.mem_items hitems hc
        obtain rfl := Except.ok.inj hitems
        exact Loader.wellFormed_of_mem_outline hunfolds.mem.1 hc
      refine ⟨fun i c hc => ⟨?_, hcons.index i c hc⟩, hcons.distinct, hcons.tabled⟩
      have hmem := Array.mem_toList_iff.2 (Array.mem_of_getElem? hc)
      rw [toList_codes_numbered] at hmem
      obtain ⟨j, hj, rfl⟩ := List.mem_mapIdx.1 hmem
      exact { hcodes _ (List.getElem_mem hj) with }
    · simp [herror] at h

/-- Loaded registries are well formed. -/
theorem Loaded.wellFormed {r : Registry} (h : r.Loaded) : r.WellFormed := by
  cases h with
  | @text tree name text _ h => exact wellFormed_of_load (.text name text) h
  | @file tree path _ h => exact wellFormed_of_load (.file path) h
  | @directory tree path extension _ h => exact wellFormed_of_load (.directory path extension) h

end Registry

/-! ## Looking up a code -/

/-- A name and a game determine the code. -/
theorem Registry.WellFormed.get?_eq {r : Registry} (hr : r.WellFormed) {i : Nat} {c : Code}
    {game : String} (hc : r.at? i = some c) (hg : c.forGame game = true) :
    r.get? c.name game = some c :=
  hr.consistent.get?_eq_some_iff.2 ⟨Array.mem_of_getElem? hc, rfl, Code.forGame_iff.1 hg⟩

/-! ## The promises, written out -/

/-- What a kind asks of the length of a parameter. -/
def FieldKind.Sized (length : Nat) : FieldKind → Prop
  | .int _ _ => length ≤ 8
  | .pointer element | .struct _ element => length ≤ 8 ∧ 1 ≤ element ∧ element ≤ 8
  | .text => True
  | .array count _ _ => 1 ≤ count ∧ count ∣ length ∧ length / count ≤ 8

theorem Param.Proper.sized {p : Param} (hp : p.Proper) : p.kind.Sized p.length := by
  obtain ⟨_, hwidth, helement, harray⟩ := hp
  cases hkind : p.kind with
  | int signed hex =>
    rw [hkind] at hwidth
    show p.length ≤ 8
    simpa [Record.widthFits] using hwidth
  | pointer element | struct group element =>
    rw [hkind] at hwidth helement
    exact ⟨by simpa [Record.widthFits] using hwidth, helement⟩
  | text => trivial
  | array count signed hex =>
    obtain ⟨hcount, hdivides⟩ := harray count signed hex hkind
    rw [hkind] at hwidth
    exact ⟨hcount, Nat.dvd_of_mod_eq_zero hdivides, by simpa [Record.widthFits] using hwidth⟩

theorem Param.overlaps_eq_false_iff {p q : Param} :
    p.overlaps q = false ↔ q.stop ≤ p.offset ∨ p.stop ≤ q.offset := by
  rw [Param.overlaps, Bool.and_eq_false_iff, decide_eq_false_iff_not, decide_eq_false_iff_not,
    Nat.not_lt, Nat.not_lt]

/-- An id has four bytes at most, so only a shorter id length can be too short for it. -/
theorem Code.WellFormed.id_lt {c : Code} (hc : c.WellFormed) : c.id.toNat < 256 ^ c.idLength := by
  have hcapacity : Bytes.capacity c.idLength = 256 ^ c.idLength := by
    rw [Bytes.capacity, Nat.one_shiftLeft, Nat.pow_mul]
  have hfits := hc.idFits
  simp only [Pending.idFits, Bool.or_eq_true, decide_eq_true_eq, hcapacity] at hfits
  rcases hfits with hlong | hfits
  · have hword : c.id.toNat < 256 ^ 4 := c.id.toNat_lt
    exact Nat.lt_of_lt_of_le hword (Nat.pow_le_pow_right (by omega) hlong)
  · exact hfits

theorem Text.exists_of_isName {text : List Char} (h : Text.isName text = true) :
    ∃ first rest, text = first :: rest ∧ (first.isAlpha ∨ first = '_') ∧
      ∀ c ∈ rest, c.isAlphanum ∨ c = '_' := by
  cases text with
  | nil => simp [Text.isName] at h
  | cons first rest => exact ⟨first, rest, rfl, by simpa [Text.isName] using h⟩

/-- Definitions that were read without a fault fit together.  Each code has a name that scripts can
    write, a place that is its index, and an id that its first bytes can hold.  Its parameters lie
    behind the id and within the code, no two of them share a byte or a name, and each has a length
    that suits its kind. -/
theorem Registry.loaded_codes_fit {r : Registry} (h : r.Loaded) {i : Nat} {c : Code}
    (hc : r.at? i = some c) :
    c.index = i ∧ 1 ≤ c.length ∧ c.idLength ≤ c.length ∧ c.id.toNat < 256 ^ c.idLength ∧
    (∃ first rest, c.name.toList = first :: rest ∧ (first.isAlpha ∨ first = '_') ∧
      ∀ d ∈ rest, d.isAlphanum ∨ d = '_') ∧
    (∀ p ∈ c.params, 1 ≤ p.length ∧ c.idLength ≤ p.offset ∧ p.offset + p.length ≤ c.length ∧
      p.kind.Sized p.length) ∧
    c.params.Pairwise fun p q =>
      (p.offset + p.length ≤ q.offset ∨ q.offset + q.length ≤ p.offset) ∧ p.name ≠ q.name := by
  obtain ⟨hwell, hindex⟩ := h.wellFormed.codes i c hc
  refine ⟨hindex, hwell.length_pos, hwell.idLength_le, hwell.id_lt, Text.exists_of_isName hwell.name,
    ?_, ?_⟩
  · intro p hp
    have hproper := hwell.proper p hp
    exact ⟨hproper.length_pos, hwell.after_id p hp, hwell.stop_le p hp, hproper.sized⟩
  · refine hwell.apart.imp₂ ?_ hwell.names
    intro p q hapart hname
    exact ⟨(Param.overlaps_eq_false_iff.1 hapart).symm, hname⟩

namespace Sample

/-- A code with a parameter of each kind, and no length of its own. -/
def trade : Code :=
  { name := "TRADE", id := 0xC0, idLength := 1, length := 28, index := 1, origin := "shop:2"
    games := ["FE7", "fe8"], align := 4
    params := [{ name := "goods", offset := 16, length := 4, kind := .struct "goods" 2 },
      { name := "label", offset := 20, length := 8, kind := .text },
      { name := "flag", offset := 1, length := 1, kind := .int false true },
      { name := "map", offset := 12, length := 4, kind := .pointer 8 },
      { name := "at", offset := 2, length := 6, kind := .array 3 true false }] }

def shop : Registry :=
  { codes := #[{ name := "SHUT", id := 0, idLength := 0, length := 4, terminates := true
                 origin := "shop:1" }, trade]
    names := ⟨[("SHUT", [0]), ("TRADE", [1])]⟩ }

def shopText : String :=
  "SHUT 0 4 -end\nTRADE 0xC0 -game:FE7:fe8 -idLength:1 -align:4\n" ++
    " goods 16 4 -element:2 -struct:goods\n label 20 8 -string -signed\n flag 1 1 -hex -hex\n" ++
    " map 12 4 -pointer -element:8\n at 2 6 -coordinates:3 -signed\n"

theorem loadText_shop : Registry.loadText {} "shop" shopText = .ok shop := by decide +kernel

theorem shop_loaded : shop.Loaded := .text loadText_shop

end Sample

/-- The two codes of a shop, one of them with parameters of all kinds. -/
theorem Registry.loaded_codes_fit_shop :
    Sample.shop.Loaded ∧ Sample.shop.at? 1 = some Sample.trade ∧
    Sample.trade.id.toNat < 256 ^ Sample.trade.idLength ∧
    (∀ p ∈ Sample.trade.params, p.kind.Sized p.length) ∧
    Sample.trade.params.Pairwise fun p q =>
      (p.offset + p.length ≤ q.offset ∨ q.offset + q.length ≤ p.offset) ∧ p.name ≠ q.name := by
  have hfit := Registry.loaded_codes_fit Sample.shop_loaded
    (show Sample.shop.at? 1 = some Sample.trade from rfl)
  exact ⟨Sample.shop_loaded, rfl, hfit.2.2.2.1, fun p hp => (hfit.2.2.2.2.2.1 p hp).2.2.2,
    hfit.2.2.2.2.2.2⟩

end CartScript
