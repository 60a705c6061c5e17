import CartScript.Proofs.Number
import CartScript.Proofs.Registry.Loaded

/-!
# Numbers in definition files

What a definition file says in numbers is what its codes hold: ids, lengths, priorities, and the
places and sizes of parameters.  Only alignments may differ, which are cut to 32 bits.
-/

namespace CartScript

namespace Number

/-- The integer that a text stands for. -/
def Written (text : List Char) (n : Int) : Prop := ∃ u : Numeral, u.Writes text ∧ u.value = n

end Number

namespace Record

theorem written_of_number {what : String} {text : List Char} {n : Int64}
    (h : number what text = .ok n) (hn : n ≠ Int64.minValue) : Number.Written text n.toInt := by
  have hread : Number.read? text = some n := by
    unfold number at h
    split at h
    · rename_i hread
      exact hread.trans (congrArg some (Except.ok.inj h))
    · simp at h
  obtain ⟨u, hu, hvalue | ⟨-, hleast⟩⟩ := Number.exists_writes hread
  · exact ⟨u, hu, hvalue.symm⟩
  · exact absurd hleast hn

theorem written_of_size {what : String} {text : List Char} {n : Nat} (h : size what text = .ok n) :
    Number.Written text n := by
  obtain ⟨m, hm, h⟩ := Except.bind_eq_ok_iff.1 h
  obtain ⟨hnonneg, h⟩ := Except.ite_error_eq_ok_iff.1 h
  have hm' : 0 ≤ m.toInt := by
    simpa [Int64.lt_iff_toInt_lt] using hnonneg
  obtain rfl := Except.ok.inj h
  rw [Int.toNat_of_nonneg hm']
  refine written_of_number hm ?_
  rintro rfl
  exact absurd hm' (by decide)

/-! ## Flags -/

/-- The values of the flags of a key, in order. -/
def valuesOf (key : String) (flags : List Flag) : List (List Char) :=
  (flags.filter (·.key == key)).map Flag.value

/-- The flags of a key are numbers that fit, and the last of them counts. -/
def Tells (flags : List Flag) (key : String) (fits : Int → Prop) (default n : Int) : Prop :=
  ∃ numbers, List.Forall₂ Number.Written (valuesOf key flags) numbers ∧ (∀ m ∈ numbers, fits m) ∧
    n = numbers.getLastD default

section Tells

variable {past : List Flag} {flag : Flag} {key : String}

theorem valuesOf_keep (h : flag.key ≠ key) : valuesOf key (past ++ [flag]) = valuesOf key past := by
  simp [valuesOf, h]

theorem valuesOf_add (h : flag.key = key) :
    valuesOf key (past ++ [flag]) = valuesOf key past ++ [flag.value] := by
  simp [valuesOf, h]

variable {fits : Int → Prop} {default m n : Int}

theorem Tells.nil : Tells [] key fits default default := ⟨[], .nil, by simp, rfl⟩

theorem Tells.keep (h : Tells past key fits default n) (hkey : flag.key ≠ key) :
    Tells (past ++ [flag]) key fits default n := by
  rwa [Tells, valuesOf_keep hkey]

theorem Tells.add (h : Tells past key fits default m) (hkey : flag.key = key)
    (hwritten : Number.Written flag.value n) (hfits : fits n) :
    Tells (past ++ [flag]) key fits default n := by
  obtain ⟨numbers, hnumbers, hall, -⟩ := h
  refine ⟨numbers ++ [n], ?_, ?_, by simp⟩
  · rw [valuesOf_add hkey]
    exact List.rel_append hnumbers (.cons hwritten .nil)
  · simpa [or_imp, forall_and] using ⟨hall, hfits⟩

end Tells

/-- The numbers of a parameter as its flags tell them. -/
structure ParamFlags.Told (past : List Flag) (flags : ParamFlags) : Prop where
  element : Tells past "element" (0 ≤ ·) 1 flags.element
  count : List.Forall₂ (fun word (n : Nat) => Number.Written word n) (valuesOf "coordinates" past)
    (flags.kind?.bind FieldKind.count?).toList

theorem ParamFlags.Told.paramFlag {past : List Flag} {length : Nat} {flags flags' : ParamFlags}
    {flag : Flag} (hflags : flags.Told past) (h : paramFlag length flags flag = .ok flags') :
    flags'.Told (past ++ [flag]) := by
  obtain ⟨helement, hcount⟩ := hflags
  rcases paramFlag_cases h with ⟨hkey, n, hn, rfl⟩ | ⟨hkey, n, hn, -, -, hnone, rfl⟩ |
    ⟨hne, hne', hsame, hkind⟩
  · refine ⟨helement.add hkey (written_of_size hn) (Int.natCast_nonneg n), ?_⟩
    rwa [valuesOf_keep (by simp [hkey])]
  · refine ⟨helement.keep (by simp [hkey]), ?_⟩
    rw [hnone] at hcount
    rw [valuesOf_add hkey]
    exact List.rel_append hcount (.cons (written_of_size hn) .nil)
  · refine ⟨hsame ▸ helement.keep hne, ?_⟩
    rw [valuesOf_keep hne']
    rcases hkind with hkind | ⟨kind, hnocount, hnone, hkind⟩
    · rwa [hkind]
    · rw [hnone] at hcount
      rw [hkind]
      simpa [hnocount] using hcount

/-- The flags make a kind with the numbers that they tell. -/
theorem ParamFlags.kind_numbers (flags : ParamFlags) :
    flags.kind.count? = flags.kind?.bind FieldKind.count? ∧
      (flags.kind.isPointer = true → flags.kind.element = flags.element) := by
  unfold ParamFlags.kind
  split
  · simp [*, FieldKind.count?, FieldKind.isPointer]
  · simp [*, FieldKind.count?, FieldKind.isPointer]
  · simp [*, FieldKind.count?, FieldKind.element]
  · simp [*, FieldKind.count?, FieldKind.element]
  · rename_i kind harray hpointer hstruct hkind
    cases kind with
    | int | text => simp [hkind, FieldKind.isPointer]
    | array count signed hex => exact absurd rfl (harray count signed hex)
    | pointer element => exact absurd rfl (hpointer element)
    | struct group element => exact absurd rfl (hstruct group element)

end Record

open Record

/-! ## Records -/

/-- The parameter holds the numbers of its record. -/
structure Param.ToldBy (record : Record) (p : Param) : Prop where
  values : ∃ name offset length, record.values = [name, offset, length] ∧
    p.name = String.ofList name ∧ Number.Written offset p.offset ∧ Number.Written length p.length
  element : p.kind.isPointer = true →
    Tells (record.flags.map Flag.ofText) "element" (0 ≤ ·) 1 p.kind.element
  /-- There is a number of values exactly if the record has one. -/
  count : List.Forall₂ (fun word (n : Nat) => Number.Written word n)
    (valuesOf "coordinates" (record.flags.map Flag.ofText)) p.kind.count?.toList

theorem Param.toldBy_of_param {text : List Char} {p : Param} (h : Record.param text = .ok p) :
    p.ToldBy (ofLine text) := by
  obtain ⟨name, offset, length, flags, hvalues, hoffset, hlength, -, hflags, -, -, hname, hkind⟩ :=
    param_eq_ok h
  have htold : flags.Told ((ofLine text).flags.map Flag.ofText) :=
    Except.foldlM_past (fun past flags => ParamFlags.Told past flags)
      (fun _ _ _ _ hb hf => hb.paramFlag hf) ⟨.nil, .nil⟩ hflags
  obtain ⟨hcount, helement⟩ := flags.kind_numbers
  refine ⟨⟨name, offset, length, hvalues, hname, written_of_size hoffset, written_of_size hlength⟩, ?_,
    ?_⟩
  · intro hpointer
    rw [hkind] at hpointer ⊢
    rw [helement hpointer]
    exact htold.element
  · rw [hkind, hcount]
    exact htold.count

/-- The numbers of a code as its flags tell them. -/
structure Code.Flagged (flags : List Flag) (id : UInt32) (c : Code) : Prop where
  id_eq : c.id = id
  priority : Tells flags "priority" (fun n => -2 ^ 31 ≤ n ∧ n < 2 ^ 31) 0 c.priority
  idLength : Tells flags "idLength" (0 ≤ ·) (Code.defaultIdLength id) c.idLength
  /-- An alignment is cut to 32 bits. -/
  align : ∃ n, Tells flags "align" (1 ≤ ·) 1 n ∧ c.align.toNat = n % 2 ^ 32

theorem Code.Flagged.codeFlag {past : List Flag} {id : UInt32} {c c' : Code} {flag : Flag}
    (hc : c.Flagged past id) (h : codeFlag c flag = .ok c') : c'.Flagged (past ++ [flag]) id := by
  obtain ⟨m, hm, halign⟩ := hc.align
  rcases codeFlag_cases h with ⟨hkey, n, hn, hleast, hgreatest, rfl⟩ | ⟨hkey, n, hn, rfl⟩ |
    ⟨hkey, n, hn, hpos, rfl⟩ | ⟨hkey, group, games, terminates, listed, rfl⟩
  · have hne : n ≠ Int64.minValue := by
      rintro rfl
      exact absurd hleast (by decide)
    exact { hc with
      priority := hc.priority.add hkey (written_of_number hn hne) ⟨hleast, hgreatest⟩
      idLength := hc.idLength.keep (by simp [hkey])
      align := ⟨m, hm.keep (by simp [hkey]), halign⟩ }
  · exact { hc with
      priority := hc.priority.keep (by simp [hkey])
      idLength := hc.idLength.add hkey (written_of_size hn) (Int.natCast_nonneg n)
      align := ⟨m, hm.keep (by simp [hkey]), halign⟩ }
  · exact { hc with
      priority := hc.priority.keep (by simp [hkey])
      idLength := hc.idLength.keep (by simp [hkey])
      align := ⟨n, hm.add hkey (written_of_size hn) (by omega), by simp⟩ }
  · simp only [List.mem_cons, List.not_mem_nil, or_false, not_or] at hkey
    exact { hc with
      priority := hc.priority.keep hkey.1
      idLength := hc.idLength.keep hkey.2.1
      align := ⟨m, hm.keep hkey.2.2, halign⟩ }

namespace Entry

/-- The code holds the numbers of its records; its length is not looked at, but the length that the
    record gives, if it gives one. -/
structure Tells (e : Entry) (length? : Option Nat) (c : Code) : Prop where
  values : ∃ name id lengths, e.head.values = name :: id :: lengths ∧
    c.name = String.ofList name ∧ Number.Written id c.id.toNat ∧
    List.Forall₂ (fun word (n : Nat) => Number.Written word n) lengths length?.toList
  flags : c.Flagged (e.head.flags.map Flag.ofText) c.id
  params : List.Forall₂ Param.ToldBy e.params c.params

/-- The code is what its records say.  Without a length it ends with the last of its parts. -/
def Shows (e : Entry) (c : Code) : Prop :=
  ∃ length?, e.Tells length? c ∧
    c.length = length?.getD ((c.params.map Param.stop).foldl max c.idLength)

theorem tells_of_code {file : String} {line : Nat} {text : List Char} {p : Pending}
    (h : Record.code file line text = .ok p) :
    p.line = line ∧ Tells ⟨line, ofLine text, []⟩ p.length? p.code := by
  obtain ⟨name, idText, lengthText?, hvalues, hof⟩ := code_eq_ok h
  obtain ⟨-, hline, hlength, id, hid, hleast, hgreatest, hcode⟩ := codeOf_eq_ok hof
  obtain ⟨hname, hparams⟩ := codeOf_keeps hof
  have hflags : p.code.Flagged ((ofLine text).flags.map Flag.ofText) (UInt32.ofNat id.toInt.toNat) :=
    Except.foldlM_past (fun past (c : Code) => c.Flagged past (UInt32.ofNat id.toInt.toNat))
      (fun _ _ _ _ hb hf => hb.codeFlag hf) ⟨rfl, .nil, .nil, 1, .nil, rfl⟩ hcode
  have hwritten : Number.Written idText id.toInt := by
    refine written_of_number hid ?_
    rintro rfl
    exact absurd hleast (by decide)
  refine ⟨hline, ⟨name, idText, lengthText?.toList, hvalues, hname, ?_, ?_⟩, hflags.id_eq ▸ hflags, ?_⟩
  · have hless : id.toInt.toNat < 2 ^ 32 := by omega
    rw [hflags.id_eq, UInt32.toNat_ofNat_of_lt' hless, Int.toNat_of_nonneg hleast]
    exact hwritten
  · cases lengthText? with
    | none =>
      obtain hnone := Except.ok.inj hlength
      rw [← hnone]
      exact .nil
    | some word =>
      obtain ⟨n, hn, hsome⟩ := Except.map_eq_ok_iff.1 hlength
      rw [← hsome]
      exact .cons (written_of_size hn) .nil
  · rw [hparams]
    exact .nil

theorem Tells.param {e : Entry} {length? : Option Nat} {c : Code} (h : e.Tells length? c)
    {text : List Char} {param : Param} (hparam : Record.param text = .ok param) :
    Tells { e with params := e.params ++ [ofLine text] } length?
      { c with params := c.params ++ [param] } :=
  ⟨h.values, { h.flags with },
    List.rel_append h.params (.cons (Param.toldBy_of_param hparam) .nil)⟩

/-- A code is what its records say. -/
theorem shows_of_makes {e : Entry} {line : Nat} {c : Code} (h : e.Makes (line, c)) :
    e.line = line ∧ e.Shows c := by
  obtain ⟨p, hdeclares, hline, hfinish⟩ := h
  have htells : p.line = e.line ∧ e.Tells p.length? p.code := by
    clear hfinish hline
    induction hdeclares with
    | code h =>
      obtain ⟨hline, htells⟩ := tells_of_code h
      exact ⟨hline, htells.values, { htells.flags with }, htells.params⟩
    | param _ hparam ih => exact ⟨ih.1, ih.2.param hparam⟩
  obtain ⟨-, -, -, -, rfl⟩ := Pending.finish_eq_ok hfinish
  obtain ⟨hfirst, htells⟩ := htells
  exact ⟨hfirst.symm.trans hline, p.length?, ⟨htells.values, { htells.flags with }, htells.params⟩, rfl⟩

end Entry

/-- Numbers in definition files are stored as they are written, but for alignments.  For every code of
    a text that is loaded, its id, length, id length and priority and the places, lengths, widths and
    counts of its parameters are the integers in its records, or what stands for them if they are
    left out.  An alignment is at least one, and what is stored is its rest modulo `2 ^ 32`. -/
theorem Registry.loadText_numbers {tree : FileTree} {name text : String} {registry : Registry}
    (h : Registry.loadText tree name text = .ok registry) :
    ∀ e ∈ Entry.entries text,
      ∃ c ∈ registry.codes, c.origin = s!"{name}:{e.line}" ∧ e.Shows c := by
  intro e he
  have hitems : (Loader.Source.text name text).items tree = .ok (Loader.outline _ text) := rfl
  rcases Loader.Source.load_cases hitems with
    ⟨files, codes, hload, -, hunfolds, -⟩ | ⟨fault, _, hload, -⟩
  · obtain rfl := Except.ok.inj (h.symm.trans hload)
    obtain ⟨hfine, hcodes⟩ := hunfolds.mem
    obtain ⟨line, c, hc, hmakes⟩ := (Loader.makes_outline hfine).1 e he
    obtain ⟨rfl, length?, htells, hlength⟩ := Entry.shows_of_makes hmakes
    obtain ⟨i, hi, hget⟩ := List.getElem_of_mem (hcodes _ c hc)
    refine ⟨{ c.declaredIn name e.line with index := i }, ?_, rfl, length?,
      ⟨htells.values, { htells.flags with }, htells.params⟩, hlength⟩
    rw [← Array.mem_toList_iff, Registry.toList_codes_numbered, List.mem_mapIdx]
    exact ⟨i, hi, by rw [hget]; rfl⟩
  · rw [show Registry.loadText tree name text = .error fault from hload] at h
    simp at h

/-- The two codes of a shop and their parameters. -/
theorem Registry.loadText_numbers_shop :
    (Entry.entries Sample.shopText).length = 2 ∧ ∀ e ∈ Entry.entries Sample.shopText,
      ∃ c ∈ Sample.shop.codes, c.origin = "shop" ++ ":" ++ toString e.line ∧ e.Shows c :=
  ⟨by decide +kernel, Registry.loadText_numbers Sample.loadText_shop⟩

/-- An alignment that is too large for its field is cut instead of refused, here to zero. -/
theorem Registry.loadText_align_cut :
    (Entry.entries "A, 1, 4, -align:0x100000000\n").map
        (fun e => valuesOf "align" (e.head.flags.map Flag.ofText)) = [["0x100000000".toList]] ∧
      Number.Written "0x100000000".toList (2 ^ 32) ∧
      (Registry.loadText {} "raws.txt" "A, 1, 4, -align:0x100000000\n").map
        (fun registry => registry.codes.toList.map Code.align) = .ok [0] := by
  have hsize : Record.size "alignment" "0x100000000".toList = .ok (2 ^ 32) := by decide +kernel
  exact ⟨by decide +kernel, written_of_size hsize, by decide +kernel⟩

end CartScript
