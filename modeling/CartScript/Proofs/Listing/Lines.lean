import CartScript.Proofs.Listing.Decoding

/-!
# Decoded codes give their bytes back

The statement that a decoded code is read as writes the bytes that the code was decoded from.
-/

namespace CartScript

/-- A code has no more parameters than bytes. -/
theorem Code.WellFormed.length_params_le {code : Code} (h : code.WellFormed) :
    code.params.length ≤ code.length := by
  refine Listing.length_le_of_distinct Param.offset
    (h.apart.imp_of_mem fun {p q} hp hq hapart heq => ?_) fun p hp => ?_
  · -- Two parameters at one offset would overlap, since neither is empty.
    have hpp := (h.proper p hp).length_pos
    have hqq := (h.proper q hq).length_pos
    rw [Param.overlaps_eq_false_iff, Param.stop, Param.stop] at hapart
    omega
  · have hpos := (h.proper p hp).length_pos
    have hstop := h.stop_le p hp
    unfold Param.stop at hstop
    omega

namespace Listing

/-- The addresses in a decoded code that are only printed are nothing, or too high for offsets. -/
def Line.HighPointers (image : Image) (line : Line) : Prop :=
  ∀ p ∈ line.code.params, p.kind.isPointer = true → p.kind.isStruct = false →
    Encoding.readUnsigned (paramBytes p (line.bytes image)) = 0 ∨
      Encoding.pointerLimit ≤ Encoding.readUnsigned (paramBytes p (line.bytes image))

instance (image : Image) (line : Line) : Decidable (line.HighPointers image) :=
  inferInstanceAs (Decidable (∀ p ∈ line.code.params, _ → _ → _))

namespace Line.Shows

variable {t : Target} {labels : List UInt32} {line : Line}

theorem read? (h : line.Shows t labels) :
    t.image.read? line.offset line.code.length = some (line.bytes t.image) ∧
      t.fits line.code (line.bytes t.image) = true := by
  obtain ⟨group, haccepts⟩ := h.accepts
  obtain ⟨_, bytes, hread, hfits⟩ := Target.of_accepts haccepts
  rw [Line.bytes, hread]
  exact ⟨rfl, hfits⟩

theorem length_bytes (h : line.Shows t labels) : (line.bytes t.image).length = line.code.length :=
  (Image.of_read? h.read?.1).1

theorem length_operands (h : line.Shows t labels) :
    line.operands.length = line.code.params.length := h.operands.length_eq.symm

/-- Addresses are nothing, or too high for offsets. -/
theorem high (h : line.Shows t labels) (hbase : Encoding.pointerLimit ≤ t.pointerBase.toNat)
    (hhigh : line.HighPointers t.image) {p : Param} (hp : p ∈ line.code.params)
    (hkind : p.kind.isPointer = true) :
    Encoding.readUnsigned (paramBytes p (line.bytes t.image)) = 0 ∨
      Encoding.pointerLimit ≤ Encoding.readUnsigned (paramBytes p (line.bytes t.image)) := by
  cases hk : p.kind with
  | pointer element => exact hhigh p hp hkind (by rw [hk]; rfl)
  | struct group element =>
    -- A sub-structure is not in the hypothesis: it fits only where its address is that of an offset.
    have hholds := (Target.of_fits h.read?.2).2.2 p hp (by rw [hk]; rfl)
    rcases Target.of_holds hholds with hzero | ⟨offset, hoffset, _⟩
    · exact .inl hzero
    · right
      unfold Encoding.unpointer? at hoffset
      split at hoffset
      · omega
      · simp at hoffset
  | int | text | array => simp [hk, FieldKind.isPointer] at hkind

/-! ## What is written -/

/-- The arguments of operands that show bytes suit the parameters. -/
theorem checkArgs (h : line.Shows t labels) (hcode : line.code.WellFormed) :
    line.code.checkArgs (line.operands.map (Operand.arg t.pointerBase)) = .ok () := by
  have hforM : ∀ {params : List Param} {operands : List Operand},
      List.Forall₂ (fun param operand => Operand.Shows t.pointerBase labels param
        (paramBytes param (line.bytes t.image)) operand) params operands →
      (∀ p ∈ params, p.stop ≤ (line.bytes t.image).length) →
      (params.zip (operands.map (Operand.arg t.pointerBase))).forM
        (fun pair => line.code.checkArg pair.1 pair.2) = .ok () := by
    intro params operands hshows hstop
    induction hshows with
    | nil => rfl
    | cons hfirst _ ih =>
      obtain ⟨hfits, hrest⟩ := List.forall_mem_cons.1 hstop
      refine List.forM_cons.trans ?_
      dsimp only
      rw [hfirst.checkArg (length_paramBytes hfits) line.code]
      exact ih hrest
  rw [Code.checkArgs, if_neg (by rw [List.length_map, h.length_operands]; simp)]
  exact hforM h.operands fun p hp => h.length_bytes ▸ hcode.stop_le p hp

/-- The parts for operands hold the bytes of the parameters. -/
theorem layout_operands {symbols : Symbols} {bytes : List UInt8} (code : Code) {base : UInt32}
    {params : List Param} {operands : List Operand}
    (hshows : List.Forall₂ (fun param operand => Operand.Shows base labels param
      (paramBytes param bytes) operand) params operands)
    (hproper : ∀ p ∈ params, p.Proper) (hnarrow : ∀ p ∈ params, p.numberWidth ≤ 7)
    (hstop : ∀ p ∈ params, p.stop ≤ bytes.length)
    (hhigh : ∀ p ∈ params, p.kind.isPointer = true →
      Encoding.readUnsigned (paramBytes p bytes) = 0 ∨
        Encoding.pointerLimit ≤ Encoding.readUnsigned (paramBytes p bytes))
    (hlabels : ∀ offset ∈ labels,
      symbols.source (Listing.label offset) = some (Int64.ofNat offset.toNat)) :
    ∃ l, Layout.ofArgs code (params.zip (operands.map (Operand.arg base))) = .ok l ∧
      l.Shows symbols base bytes fun k => ∃ p ∈ params, p.covers k = true := by
  induction hshows with
  | nil => exact ⟨{}, rfl, by simp, by simp, by simp⟩
  | cons hfirst _ ih =>
    simp only [List.forall_mem_cons] at hproper hnarrow hstop hhigh
    obtain ⟨a, ha, hashows⟩ :=
      hfirst.layout code hproper.1 hnarrow.1 hstop.1 hhigh.1 hlabels
    obtain ⟨b, hb, hbshows⟩ := ih hproper.2 hnarrow.2 hstop.2 hhigh.2
    refine ⟨a.append b, ?_, (hashows.append hbshows).mono fun k hk => ?_⟩
    · simp only [List.map_cons, List.zip_cons_cons, Layout.ofArgs, ha, hb, Except.map]
    · obtain ⟨p, hp, hcovers⟩ := hk
      rcases List.mem_cons.1 hp with rfl | hp
      · exact .inl hcovers
      · exact .inr ⟨p, hp, hcovers⟩

/-- What the statement of a decoded code writes is there already. -/
theorem layout (h : line.Shows t labels) (hcode : line.code.WellFormed)
    (hnarrow : ∀ p ∈ line.code.params, p.numberWidth ≤ 7)
    (hbase : Encoding.pointerLimit ≤ t.pointerBase.toNat) (hhigh : line.HighPointers t.image)
    {symbols : Symbols} (hlabels : ∀ offset ∈ labels,
      symbols.source (Listing.label offset) = some (Int64.ofNat offset.toNat))
    {registry : Registry} (hat : registry.at? line.code.index = some line.code) (size : Nat) :
    ∃ l, Layout.ofStatement
        (.code line.code.index (line.operands.map (Operand.arg t.pointerBase))) size registry =
          .ok l ∧
      l.Shows symbols t.pointerBase (line.bytes t.image) fun k =>
        k < (line.bytes t.image).length ∧ (line.bytes t.image)[k]? ≠ some 0 := by
  obtain ⟨hid, hcovers, _⟩ := Target.of_fits h.read?.2
  obtain ⟨l, hl, hshows⟩ := layout_operands line.code h.operands hcode.proper hnarrow
    (fun p hp => h.length_bytes ▸ hcode.stop_le p hp) (fun p hp => h.high hbase hhigh hp) hlabels
  have hidLength : line.code.idBytes.length = line.code.idLength := Bytes.length_ofNat ..
  -- The id comes first, and the parameters after it.
  have hfixed : Patch.Matches (line.bytes t.image) ⟨0, line.code.idBytes⟩ := by
    show ((line.bytes t.image).drop 0).take line.code.idBytes.length = line.code.idBytes
    rw [List.drop_zero, hidLength, hid]
  refine ⟨Layout.append { fixed := [⟨0, line.code.idBytes⟩] } l, ?_,
    ((Layout.Shows.patch hfixed rfl).append hshows).mono fun k hk => ?_⟩
  · simp only [Layout.ofStatement, hat, hl, Except.map]
  · -- A byte that is neither of the id nor of a parameter is zero, as it is without being written.
    have hcovered := hcovers k hk.2 hk.1
    simp only [Code.covers, Bool.or_eq_true, decide_eq_true_eq, List.any_eq_true] at hcovered
    refine hcovered.imp_left fun hlt => Interval.contains_iff.2 ⟨Nat.zero_le _, ?_⟩
    show k < 0 + line.code.idBytes.length
    omega

/-! ## What is read -/

/-- Every operand shows a parameter. -/
theorem exists_param (h : line.Shows t labels) {operand : Operand} (ho : operand ∈ line.operands) :
    ∃ p ∈ line.code.params, Operand.Shows t.pointerBase labels p
      (paramBytes p (line.bytes t.image)) operand := by
  obtain ⟨i, hi, rfl⟩ := List.mem_iff_getElem.1 ho
  have hi' : i < line.code.params.length := h.length_operands ▸ hi
  exact ⟨line.code.params[i], List.getElem_mem hi', (List.forall₂_iff_get.1 h.operands).2 i hi' hi⟩

/-- The line of a decoded code can be written. -/
theorem writable (h : line.Shows t labels) (hcode : line.code.WellFormed)
    (hnarrow : ∀ p ∈ line.code.params, p.numberWidth ≤ 7) : Entry.Writable (.code line) := by
  refine ⟨hcode.name, h.length_operands, fun operand hoperand => ?_⟩
  obtain ⟨p, hp, hshows⟩ := h.exists_param hoperand
  exact hshows.writable (hcode.proper p hp) (hnarrow p hp)
    (length_paramBytes (h.length_bytes ▸ hcode.stop_le p hp))

/-- The line of a decoded code is read as a use of the code. -/
theorem readable (h : line.Shows t labels) (hcode : line.code.WellFormed) {env : Environment}
    (hname : Keyword.ofName? line.code.name = none)
    (hget : env.registry.get? line.code.name env.game = some line.code)
    (hlimit : t.image.size ≤ env.limit) : Entry.Readable env t.pointerBase (.code line) := by
  have hsize : line.code.length ≤ t.image.size := by
    have := (Image.of_read? h.read?.1).2.1
    omega
  refine ⟨hname, hget, h.checkArgs hcode, ?_, fun operand hoperand => ?_⟩
  · -- Neither the operands nor the values in one of them are too many for the loops that read them.
    have := hcode.length_params_le
    rw [h.length_operands]
    omega
  · obtain ⟨p, hp, hshows⟩ := h.exists_param hoperand
    have hstop := hcode.stop_le p hp
    have hcount := hshows.count_le (hcode.proper p hp)
      (length_paramBytes (h.length_bytes ▸ hstop))
    unfold Param.stop at hstop
    omega

end Line.Shows

end Listing

end CartScript
