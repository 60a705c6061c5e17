import CartScript.Proofs.Assembly.Fields
import Mathlib.Data.List.Perm.Basic

/-!
# Values in the fields of a statement

The fields of a statement share no byte with each other or with the bytes that are fixed.  So values
may be put into them in any order, and each field reads back its own.
-/

namespace CartScript

/-- The bytes of a patch are found where it was written. -/
theorem Patch.slice_render {patches : List Patch} {size : Nat} (hd : Disjoint patches) {p : Patch}
    (hp : p ∈ patches) (hstop : p.interval.stop ≤ size) :
    ((render size patches).drop p.start).take p.bytes.length = p.bytes := by
  have hstop : p.start + p.bytes.length ≤ size := hstop
  refine List.ext_getElem? fun i => ?_
  by_cases hi : i < p.bytes.length
  · have hcovers : p.interval.contains (p.start + i) = true :=
      Interval.contains_iff.2 ⟨Nat.le_add_right .., Nat.add_lt_add_left hi _⟩
    rw [List.getElem?_take_of_lt hi, List.getElem?_drop,
      getElem?_render_of_mem hd (by omega) hp hcovers, Nat.add_sub_cancel_left]
  · rw [List.getElem?_eq_none (by simp; omega), List.getElem?_eq_none (by omega)]

namespace Field

variable {f : Field} {value : Int64} {base : UInt32} {p : Patch}

/-- The number that stands in a field for a value: a pointer holds an address. -/
def stored (f : Field) (value : Int64) (base : UInt32) : Int64 :=
  if f.isPointer then Encoding.pointer value base else value

theorem encode_eq_ok_iff :
    f.encode value base = .ok p ↔
      ∃ bytes, Encoding.int (f.stored value base) f.width = .ok bytes ∧ ⟨f.start, bytes⟩ = p :=
  Except.map_eq_ok_iff

theorem interval_of_encode (h : f.encode value base = .ok p) : p.interval = f.interval := by
  obtain ⟨bytes, hbytes, rfl⟩ := encode_eq_ok_iff.1 h
  rw [Patch.interval, interval, Encoding.length_int hbytes]

theorem exists_encode_iff (hf : f.Sound) :
    (∃ p, f.encode value base = .ok p) ↔ Encoding.InRange (f.stored value base) f.width := by
  rw [← Encoding.exists_int_iff hf.width_le]
  exact Except.exists_map_eq_ok_iff

/-- Puts values into fields. -/
def encodeAll (base : UInt32) (entries : List (Field × Int64)) : Except AssembleFault (List Patch) :=
  entries.mapM fun entry => entry.1.encode entry.2 base

variable {entries : List (Field × Int64)} {patches : List Patch}

theorem encodeAll_cons_eq_ok_iff {entry : Field × Int64} :
    encodeAll base (entry :: entries) = .ok patches ↔ ∃ p rest,
      entry.1.encode entry.2 base = .ok p ∧ encodeAll base entries = .ok rest ∧
        p :: rest = patches := by
  simp only [encodeAll, List.mapM_cons, Except.bind_eq_ok_iff, pure, Except.pure, Except.ok.injEq,
    exists_and_left]

/-- Each value becomes the bytes of its field. -/
theorem encodeAll_eq_ok_iff :
    encodeAll base entries = .ok patches ↔
      List.Forall₂ (fun entry p => entry.1.encode entry.2 base = .ok p) entries patches := by
  induction entries generalizing patches with
  | nil => simp [encodeAll, pure, Except.pure, eq_comm]
  | cons entry entries ih =>
    rw [encodeAll_cons_eq_ok_iff, List.forall₂_cons_left_iff]
    simp only [ih, eq_comm]

theorem exists_encodeAll_iff (hsound : ∀ entry ∈ entries, entry.1.Sound) :
    (∃ patches, encodeAll base entries = .ok patches) ↔
      ∀ entry ∈ entries, Encoding.InRange (entry.1.stored entry.2 base) entry.1.width := by
  induction entries with
  | nil => simp [encodeAll, pure, Except.pure]
  | cons entry entries ih =>
    obtain ⟨hfirst, hrest⟩ := List.forall_mem_cons.1 hsound
    rw [List.forall_mem_cons, ← ih hrest, ← exists_encode_iff hfirst]
    simp only [encodeAll_cons_eq_ok_iff]
    constructor
    · rintro ⟨_, p, rest, hp, hpatches, -⟩
      exact ⟨⟨p, hp⟩, rest, hpatches⟩
    · rintro ⟨⟨p, hp⟩, rest, hpatches⟩
      exact ⟨_, p, rest, hp, hpatches, rfl⟩

theorem map_interval_of_encodeAll (h : encodeAll base entries = .ok patches) :
    patches.map Patch.interval = (entries.map Prod.fst).map interval := by
  rw [encodeAll_eq_ok_iff] at h
  induction h with
  | nil => rfl
  | cons hp _ ih => rw [List.map_cons, interval_of_encode hp, ih]; rfl

end Field

namespace Layout

/-- The bytes of a statement with values put into fields, one after the other. -/
def filled (l : Layout) (size : Nat) (base : UInt32) (entries : List (Field × Int64)) :
    Except AssembleFault (List UInt8) :=
  (Field.encodeAll base entries).map fun patches => Patch.render size (l.fixed ++ patches)

variable {l : Layout} {size : Nat} {base : UInt32} {entries : List (Field × Int64)}
  {patches : List Patch} {bytes : List UInt8}

section Neat

variable (hneat : l.Neat size) (hsub : (entries.map Prod.fst).Subperm l.fields)

include hneat hsub

/-- What is put into fields lies apart, also from what is fixed. -/
theorem Neat.disjoint (h : Field.encodeAll base entries = .ok patches) :
    Patch.Disjoint (l.fixed ++ patches) := by
  obtain ⟨fields, hperm, hsublist⟩ := hsub
  have hapart : (l.fixed.map Patch.interval ++ fields.map Field.interval).Pairwise Interval.Apart :=
    hneat.apart.sublist ((hsublist.map _).append_left _)
  rw [((hperm.map _).append_left _).pairwise_iff Interval.Apart.symm,
    ← Field.map_interval_of_encodeAll h, ← List.map_append] at hapart
  exact List.pairwise_map.1 hapart

/-- Values may be put into fields in any order. -/
theorem Neat.filled_perm {others : List (Field × Int64)} (hperm : others.Perm entries)
    (h : l.filled size base entries = .ok bytes) : l.filled size base others = .ok bytes := by
  obtain ⟨patches, hpatches, rfl⟩ := Except.map_eq_ok_iff.1 h
  obtain ⟨reordered, hall, hpatch⟩ :=
    List.perm_comp_forall₂ hperm (Field.encodeAll_eq_ok_iff.1 hpatches)
  refine Except.map_eq_ok_iff.2 ⟨reordered, Field.encodeAll_eq_ok_iff.2 hall, ?_⟩
  exact (Patch.render_perm (hpatch.symm.append_left _) (hneat.disjoint hsub hpatches)).symm

/-- Each field holds the value that was put into it. -/
theorem Neat.holds_of_filled (hsound : ∀ f ∈ l.fields, f.Sound)
    (h : l.filled size base entries = .ok bytes) {entry : Field × Int64} (hentry : entry ∈ entries) :
    Encoding.Holds entry.1.width ((bytes.drop entry.1.start).take entry.1.width)
      (entry.1.stored entry.2 base) := by
  obtain ⟨patches, hpatches, rfl⟩ := Except.map_eq_ok_iff.1 h
  obtain ⟨p, hp, hencode⟩ := (Field.encodeAll_eq_ok_iff.1 hpatches).exists_mem hentry
  have hfield : entry.1 ∈ l.fields := hsub.subset (List.mem_map_of_mem hentry)
  have hstop : p.interval.stop ≤ size := by
    rw [Field.interval_of_encode hencode]
    exact hneat.within _ (List.mem_append_right _ (List.mem_map_of_mem hfield))
  have hslice := Patch.slice_render (hneat.disjoint hsub hpatches) (List.mem_append_right _ hp) hstop
  obtain ⟨part, hpart, rfl⟩ := Field.encode_eq_ok_iff.1 hencode
  rw [Encoding.length_int hpart] at hslice
  rw [hslice]
  exact Encoding.holds_of_int (hsound _ hfield).width_pos (hsound _ hfield).width_le hpart

/-- What is fixed stays. -/
theorem Neat.fixed_of_filled (h : l.filled size base entries = .ok bytes) {p : Patch}
    (hp : p ∈ l.fixed) : (bytes.drop p.start).take p.bytes.length = p.bytes := by
  obtain ⟨patches, hpatches, rfl⟩ := Except.map_eq_ok_iff.1 h
  exact Patch.slice_render (hneat.disjoint hsub hpatches) (List.mem_append_left _ hp)
    (hneat.within _ (List.mem_append_left _ (List.mem_map_of_mem hp)))

end Neat

/-- The fields of a statement never collide.  They lie within the bytes of the statement, and apart
    from each other and from the bytes that are fixed: those of the id and of texts.  So values that
    are in range may be put into any of them, in any order with the same result; each field reads back
    its own value, and what is fixed stays. -/
theorem ofStatement_fields_apart {registry : Registry} (hr : registry.Loaded) {program : Program}
    (hp : program.Parsed registry) {st : Located Statement} (hst : st ∈ program)
    {cursor next : Cursor} {symbols : SymbolSource} {span : Span}
    (hstep : cursor.step st.value registry symbols = .ok (some span, next)) :
    ∃ l, ofStatement st.value span.size registry = .ok l ∧
      (∀ f ∈ l.fields, 1 ≤ f.width ∧ f.start + f.width ≤ span.size) ∧
      (l.fields.Pairwise fun f g => f.interval.Apart g.interval) ∧
      (∀ p ∈ l.fixed, ∀ f ∈ l.fields, p.interval.Apart f.interval) ∧
      ∀ (base : UInt32) (entries : List (Field × Int64)),
        (entries.map Prod.fst).Subperm l.fields →
        ((∃ bytes, l.filled span.size base entries = .ok bytes) ↔
          ∀ entry ∈ entries, Encoding.InRange (entry.1.stored entry.2 base) entry.1.width) ∧
        ∀ bytes, l.filled span.size base entries = .ok bytes →
          (∀ others, others.Perm entries → l.filled span.size base others = .ok bytes) ∧
          (∀ entry ∈ entries, Encoding.Holds entry.1.width
            ((bytes.drop entry.1.start).take entry.1.width) (entry.1.stored entry.2 base)) ∧
          ∀ p ∈ l.fixed, (bytes.drop p.start).take p.bytes.length = p.bytes := by
  obtain ⟨l, hl, hneat, hsound⟩ :=
    ofStatement_of_step hr.wellFormed (hp.sound hr.wellFormed st hst) hstep
  obtain ⟨-, hfields, hcross⟩ := List.pairwise_append.1 hneat.apart
  refine ⟨l, hl, fun f hf => ⟨(hsound f hf).width_pos, ?_⟩, List.pairwise_map.1 hfields,
    fun p hp f hf => hcross _ (List.mem_map_of_mem hp) _ (List.mem_map_of_mem hf), ?_⟩
  · exact hneat.within _ (List.mem_append_right _ (List.mem_map_of_mem hf))
  · intro base entries hsub
    refine ⟨?_, fun bytes h => ⟨fun others hperm => hneat.filled_perm hsub hperm h,
      fun entry => hneat.holds_of_filled hsub hsound h, fun p => hneat.fixed_of_filled hsub h⟩⟩
    rw [← Field.exists_encodeAll_iff fun entry hentry =>
      hsound _ (hsub.subset (List.mem_map_of_mem hentry))]
    exact Except.exists_map_eq_ok_iff

end Layout

namespace Sample

/-- A code with an argument of each kind. -/
def sale : Statement :=
  .code 1 [.list [⟨[.number 1]⟩, ⟨[.number 2]⟩], .text "Ab", .expr ⟨[.number 7]⟩,
    .expr ⟨[.label "spot"]⟩, .list [⟨[.number 1]⟩, ⟨[.number 2]⟩, ⟨[.number 3]⟩]]

theorem sale_parsed : Program.Parsed shop [⟨⟨"sale", 1, 1⟩, sale⟩] := by
  have h : (Script.parse ⟨"sale", Utf8.encode "TRADE([1, 2], \"Ab\", 7, spot, [1, 2, 3])\n", none⟩
      { registry := shop, game := "FE7" } []).outcome = .ok [⟨⟨"sale", 1, 1⟩, sale⟩] := by
    decide +kernel
  exact ⟨_, _, _, rfl, h⟩

/-- The id and the text are fixed; the other arguments have fields. -/
def saleLayout : Layout where
  fixed := [⟨0, [0xC0]⟩, ⟨20, [0x41, 0x62, 0, 0, 0, 0, 0, 0]⟩]
  fields := [.pointer 16 4 (.inline (.list [⟨[.number 1]⟩, ⟨[.number 2]⟩]) 2),
    .int 1 1 ⟨[.number 7]⟩, .pointer 12 4 (.expr ⟨[.label "spot"]⟩), .int 2 2 ⟨[.number 1]⟩,
    .int 4 2 ⟨[.number 2]⟩, .int 6 2 ⟨[.number 3]⟩]

/-- Values for some of the fields. -/
def prices : List (Field × Int64) :=
  [(.int 6 2 ⟨[.number 3]⟩, -2), (.pointer 12 4 (.expr ⟨[.label "spot"]⟩), 0x40),
    (.int 1 1 ⟨[.number 7]⟩, 0xFF)]

def saleBytes : List UInt8 :=
  [0xC0, 0xFF, 0, 0, 0, 0, 0xFE, 0xFF, 0, 0, 0, 0, 0x40, 0, 0, 8, 0, 0, 0, 0, 0x41, 0x62, 0, 0, 0, 0,
    0, 0]

end Sample

/-- Values are put into three of the six fields of a code, from the last one to the first. -/
theorem Layout.ofStatement_fields_apart_sale :
    Sample.shop.Loaded ∧ Program.Parsed Sample.shop [⟨⟨"sale", 1, 1⟩, Sample.sale⟩] ∧
    Cursor.step ⟨4, [], 0x8000000, 64⟩ Sample.sale Sample.shop (fun _ => none) =
      .ok (some ⟨4, 28⟩, ⟨32, [], 0x8000000, 64⟩) ∧
    ofStatement Sample.sale 28 Sample.shop = .ok Sample.saleLayout ∧
    (Sample.prices.map Prod.fst).Subperm Sample.saleLayout.fields ∧
    Sample.saleLayout.filled 28 0x8000000 Sample.prices.reverse = .ok Sample.saleBytes ∧
    Encoding.Holds 2 [0xFE, 0xFF] (-2) ∧ Encoding.Holds 4 [0x40, 0, 0, 8] 0x8000040 := by
  have hstep : Cursor.step ⟨4, [], 0x8000000, 64⟩ Sample.sale Sample.shop (fun _ => none) =
      .ok (some ⟨4, 28⟩, ⟨32, [], 0x8000000, 64⟩) := rfl
  have hlayout : ofStatement Sample.sale 28 Sample.shop = .ok Sample.saleLayout := by decide +kernel
  have hsub : (Sample.prices.map Prod.fst).Subperm Sample.saleLayout.fields := by decide +kernel
  have hfilled : Sample.saleLayout.filled 28 0x8000000 Sample.prices = .ok Sample.saleBytes := by
    decide +kernel
  obtain ⟨l, hl, -, -, -, hputs⟩ :=
    ofStatement_fields_apart Sample.shop_loaded Sample.sale_parsed (.head _) hstep
  obtain rfl := Except.ok.inj (hl.symm.trans hlayout)
  obtain ⟨hperm, hholds, -⟩ := (hputs _ _ hsub).2 _ hfilled
  exact ⟨Sample.shop_loaded, Sample.sale_parsed, hstep, hlayout, hsub,
    hperm _ (List.reverse_perm _), hholds _ (.head _), hholds _ (.tail _ (.head _))⟩

end CartScript
