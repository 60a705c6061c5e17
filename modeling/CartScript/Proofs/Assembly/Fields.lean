import CartScript.Proofs.Assembly.Patches
import CartScript.Proofs.Encoding
import CartScript.Proofs.Script.Parsed

/-!
# The parts of what a statement writes

The parts of a statement that a script may hold always exist.  They lie within the bytes that the
statement writes and apart from each other, because the parameters of a loaded code do.
-/

namespace CartScript

theorem Utf8.length_encode (s : String) : (encode s).length = s.utf8ByteSize := by
  have h := congrArg ByteArray.size s.utf8Encode_toList
  simpa [encode, List.utf8Encode, List.length_flatMap] using h

/-! ## Promises -/

def Field.interval (f : Field) : Interval := ⟨f.start, f.start + f.width⟩

/-- Data in free space that has elements, each of a width. -/
structure Arg.Inlined (data : Arg) (element : Nat) : Prop where
  exprs : ∀ e ∈ data.exprs, e.WellFormed
  proper : data.Proper
  inlined : ∀ e, data ≠ .expr e
  element_pos : 1 ≤ element
  element_le : element ≤ 8

/-- What is promised about the width and the source of a field. -/
structure Field.Sound (f : Field) : Prop where
  width_pos : 1 ≤ f.width
  width_le : f.width ≤ 8
  expr : ∀ e, f.source = .expr e → e.WellFormed
  inline : ∀ data element, f.source = .inline data element →
    data.Inlined element ∧ f.isPointer = true

/-- A statement that writes a number of bytes. -/
inductive Statement.Writes (registry : Registry) (size : Nat) : Statement → Prop
  | code {index : Nat} {args : List Arg} {code : Code} (hat : registry.at? index = some code)
      (hsize : size = code.length) : Writes registry size (.code index args)
  | data {width : Nat} {values : List Expr} (hsize : size = width * values.length) :
      Writes registry size (.data width values)
  | pointers {values : List Expr} (hsize : size = 4 * values.length) :
      Writes registry size (.pointers values)
  | fill {count value : Expr} : Writes registry size (.fill count value)
  | bytes {content : Array UInt8} (hsize : size = content.size) : Writes registry size (.bytes content)

/-- What a step past a statement that writes does: the bytes start at the cursor, and the cursor goes
    on after them. -/
theorem Cursor.writes_of_step {cursor next : Cursor} {statement : Statement} {registry : Registry}
    {symbols : SymbolSource} {span : Span}
    (h : cursor.step statement registry symbols = .ok (some span, next)) :
    span.offset = cursor.offset ∧
      next = { cursor with offset := cursor.offset + UInt32.ofNat span.size } ∧
      statement.Writes registry span.size := by
  -- All statements that write advance the cursor in the same way.
  have hadvance {size : Nat} (h : cursor.advance size = (some span, next)) :
      span.offset = cursor.offset ∧
        next = { cursor with offset := cursor.offset + UInt32.ofNat span.size } ∧ span.size = size := by
    simp only [advance, Prod.mk.injEq, Option.some.injEq] at h
    obtain ⟨rfl, rfl⟩ := h
    exact ⟨rfl, rfl, rfl⟩
  cases statement with
  | code index args =>
    simp only [step] at h
    split at h
    · rename_i code hat
      obtain ⟨hoffset, hnext, hsize⟩ := hadvance (Except.ok.inj h)
      exact ⟨hoffset, hnext, .code hat hsize⟩
    · simp at h
  | data width values =>
    obtain ⟨hoffset, hnext, hsize⟩ := hadvance (Except.ok.inj h)
    exact ⟨hoffset, hnext, .data hsize⟩
  | pointers values =>
    obtain ⟨hoffset, hnext, hsize⟩ := hadvance (Except.ok.inj h)
    exact ⟨hoffset, hnext, .pointers hsize⟩
  | bytes content =>
    obtain ⟨hoffset, hnext, hsize⟩ := hadvance (Except.ok.inj h)
    exact ⟨hoffset, hnext, .bytes hsize⟩
  | fill count value =>
    obtain ⟨_, _, h⟩ := Except.bind_eq_ok_iff.1 h
    obtain ⟨size, _, h⟩ := Except.bind_eq_ok_iff.1 h
    obtain ⟨hoffset, hnext, _⟩ := hadvance (Except.ok.inj h)
    exact ⟨hoffset, hnext, .fill⟩
  | org target =>
    obtain ⟨_, _, h⟩ := Except.bind_eq_ok_iff.1 h
    obtain ⟨_, _, h⟩ := Except.bind_eq_ok_iff.1 h
    simp [pure, Except.pure] at h
  | align multiple =>
    obtain ⟨_, _, h⟩ := Except.bind_eq_ok_iff.1 h
    simp [pure, Except.pure] at h
  | pop =>
    simp only [step] at h
    split at h <;> simp at h
  | label | constant | push | protect | assertion | report => simp [step] at h

namespace Layout

/-- The places of all parts. -/
def intervals (l : Layout) : List Interval := l.fixed.map Patch.interval ++ l.fields.map Field.interval

/-- Parts that lie within `size` bytes and apart from each other. -/
structure Neat (size : Nat) (l : Layout) : Prop where
  within : ∀ i ∈ l.intervals, i.stop ≤ size
  apart : l.intervals.Pairwise Interval.Apart

theorem intervals_append (a b : Layout) :
    (a.append b).intervals.Perm (a.intervals ++ b.intervals) := by
  simp only [intervals, append, List.map_append, List.append_assoc]
  refine List.Perm.append_left _ ?_
  rw [← List.append_assoc, ← List.append_assoc]
  exact List.Perm.append_right _ List.perm_append_comm

/-- Layouts of which any two parts lie apart. -/
theorem apart_append {a b : Layout} (ha : a.intervals.Pairwise Interval.Apart)
    (hb : b.intervals.Pairwise Interval.Apart)
    (hab : ∀ i ∈ a.intervals, ∀ j ∈ b.intervals, i.Apart j) :
    (a.append b).intervals.Pairwise Interval.Apart := by
  rw [(intervals_append a b).pairwise_iff Interval.Apart.symm]
  exact List.pairwise_append.2 ⟨ha, hb, hab⟩

end Layout

/-! ## Numbers one after the other -/

namespace Field

variable {values : List Expr} {start width : Nat} {f : Field}

theorem mem_ints (h : f ∈ ints start width values) :
    ∃ i e, i < values.length ∧ e ∈ values ∧ f = int (start + i * width) width e := by
  simp only [ints, List.mem_mapIdx] at h
  obtain ⟨i, hi, rfl⟩ := h
  exact ⟨i, values[i], hi, List.getElem_mem hi, rfl⟩

/-- Numbers one after the other end where their last one does. -/
theorem stop_le_of_mem_ints (h : f ∈ ints start width values) :
    start ≤ f.interval.start ∧ f.interval.stop ≤ start + values.length * width := by
  obtain ⟨i, e, hi, _, rfl⟩ := mem_ints h
  have hmul : (i + 1) * width ≤ values.length * width := Nat.mul_le_mul_right _ hi
  rw [Nat.succ_mul] at hmul
  simp only [interval, int]
  omega

/-- Fields of a width one after the other lie apart. -/
theorem apart_of_mapIdx {α : Type} (start width : Nat) (values : List α) (make : Nat → α → Field)
    (hmake : ∀ i a, (make i a).interval = ⟨start + i * width, start + i * width + width⟩) :
    (values.mapIdx make).Pairwise fun f g => f.interval.Apart g.interval := by
  rw [List.pairwise_iff_getElem]
  intro i j hi hj hij
  have hmul : (i + 1) * width ≤ j * width := Nat.mul_le_mul_right _ hij
  rw [Nat.succ_mul] at hmul
  simp only [List.getElem_mapIdx, hmake, Interval.Apart]
  omega

theorem apart_ints (start width : Nat) (values : List Expr) :
    (ints start width values).Pairwise fun f g => f.interval.Apart g.interval :=
  apart_of_mapIdx start width values _ fun _ _ => rfl

theorem sound_of_mem_ints (hpos : 1 ≤ width) (hle : width ≤ 8) (hv : ∀ e ∈ values, e.WellFormed)
    (h : f ∈ ints start width values) : f.Sound := by
  obtain ⟨i, e, _, he, rfl⟩ := mem_ints h
  exact ⟨hpos, hle, fun e' heq => FieldSource.expr.inj heq ▸ hv e he, fun _ _ heq => by cases heq⟩

end Field

namespace Layout

/-- A layout of fields alone has their places. -/
theorem intervals_fields (fields : List Field) :
    ({ fields } : Layout).intervals = fields.map Field.interval := rfl

theorem intervals_fixed (fixed : List Patch) :
    ({ fixed } : Layout).intervals = fixed.map Patch.interval := by
  simp [intervals]

variable {param : Param} {code : Code} {registry : Registry} {args : List Arg} {width : Nat}
  {arg : Arg}

/-- Numbers one after the other, as a layout. -/
theorem ints_within {start : Nat} {values : List Expr} {i : Interval}
    (h : i ∈ ({ fields := Field.ints start width values } : Layout).intervals) :
    start ≤ i.start ∧ i.stop ≤ start + values.length * width := by
  rw [intervals_fields, List.mem_map] at h
  obtain ⟨f, hf, rfl⟩ := h
  exact Field.stop_le_of_mem_ints hf

theorem ints_apart (start width : Nat) (values : List Expr) :
    ({ fields := Field.ints start width values } : Layout).intervals.Pairwise Interval.Apart := by
  rw [intervals_fields, List.pairwise_map]
  exact Field.apart_ints start width values

/-! ## Arguments -/

/-- What is promised about the parts of an argument: they lie within its parameter. -/
structure ForParam (param : Param) (l : Layout) : Prop where
  within : ∀ i ∈ l.intervals, param.offset ≤ i.start ∧ i.stop ≤ param.stop
  apart : l.intervals.Pairwise Interval.Apart
  sound : ∀ f ∈ l.fields, f.Sound

theorem ForParam.single {f : Field} (hplace : f.interval = ⟨param.offset, param.stop⟩)
    (hsound : f.Sound) : ForParam param { fields := [f] } where
  within i hi := by
    rw [intervals_fields, List.map_singleton, List.mem_singleton] at hi
    simp [hi, hplace]
  apart := List.pairwise_singleton _ _
  sound g hg := List.mem_singleton.1 hg ▸ hsound

theorem ForParam.ints {items : List Expr} (hpos : 1 ≤ width) (hle : width ≤ 8)
    (hfit : items.length * width ≤ param.length)
    (hitems : ∀ e ∈ items, e.WellFormed) :
    ForParam param { fields := Field.ints param.offset width items } where
  within i hi := by
    obtain ⟨hstart, hstop⟩ := ints_within hi
    exact ⟨hstart, Nat.le_trans hstop (Nat.add_le_add_left hfit _)⟩
  apart := ints_apart ..
  sound _ hf := Field.sound_of_mem_ints hpos hle hitems hf

/-- A pointer holds the value of an expression, or the address of data in free space. -/
theorem ForParam.pointer {element : Nat} (hlength : 1 ≤ param.length) (hle : param.length ≤ 8)
    (helement : 1 ≤ element ∧ element ≤ 8) (harg : arg.Proper)
    (hexprs : ∀ e ∈ arg.exprs, e.WellFormed) {source : FieldSource}
    (hsource : (∃ e, arg = .expr e ∧ source = .expr e) ∨
      (∀ e, arg ≠ .expr e) ∧ source = .inline arg element) :
    ForParam param { fields := [.pointer param.offset param.length source] } := by
  refine ForParam.single rfl ⟨hlength, hle, ?_, ?_⟩
  · rintro e heq
    obtain ⟨e', rfl, rfl⟩ | ⟨_, rfl⟩ := hsource
    · exact FieldSource.expr.inj heq ▸ hexprs e' (by simp [Arg.exprs])
    · cases heq
  · rintro data width heq
    obtain ⟨e', rfl, rfl⟩ | ⟨hne, rfl⟩ := hsource
    · cases heq
    · cases heq
      exact ⟨⟨hexprs, harg, hne, helement.1, helement.2⟩, rfl⟩

/-- The parts of an argument that suits its parameter. -/
theorem ofArg_of_checkArg (hp : param.Proper) (harg : arg.Proper)
    (hexprs : ∀ e ∈ arg.exprs, e.WellFormed) (hcheck : code.checkArg param arg = .ok ()) :
    ∃ l, ofArg code param arg = .ok l ∧ ForParam param l := by
  have hwidth := hp.width
  have helement := hp.element
  have hlength := hp.length_pos
  -- The argument was checked against the kind of its parameter, which leaves few pairs of the two.
  cases hk : param.kind with
  | int signed hex =>
    simp only [hk, Record.widthFits, decide_eq_true_eq] at hwidth
    cases arg with
    | expr value =>
      refine ⟨{ fields := [.int param.offset param.length value] }, by simp only [ofArg, hk],
        ForParam.single rfl ⟨hlength, hwidth, ?_, ?_⟩⟩
      · intro e heq
        exact FieldSource.expr.inj heq ▸ hexprs value (by simp [Arg.exprs])
      · intro _ _ heq
        cases heq
    | list items | text content => simp [Code.checkArg, hk] at hcheck
  | pointer element | struct group element =>
    simp only [hk, Record.widthFits, decide_eq_true_eq, FieldKind.element] at hwidth helement
    cases arg with
    | expr value =>
      exact ⟨_, by simp only [ofArg, hk],
        ForParam.pointer hlength hwidth helement harg hexprs (.inl ⟨value, rfl, rfl⟩)⟩
    | list items | text content =>
      exact ⟨_, by simp only [ofArg, hk],
        ForParam.pointer hlength hwidth helement harg hexprs (.inr ⟨by simp, rfl⟩)⟩
  | text =>
    cases arg with
    | expr value => simp [Code.checkArg, hk] at hcheck
    | list items =>
      simp only [Code.checkArg, hk] at hcheck
      split at hcheck
      · simp at hcheck
      · rename_i hlong
        refine ⟨_, by simp only [ofArg, hk]; rw [if_pos (Nat.not_lt.1 hlong)], ?_⟩
        exact ForParam.ints (Nat.le_refl 1) (by decide) (by omega) hexprs
    | text content =>
      simp only [Code.checkArg, hk] at hcheck
      split at hcheck
      · simp at hcheck
      · rename_i hlong
        rw [← Utf8.length_encode] at hlong
        -- The text is filled up with zeros to the length of the parameter.
        let padding := List.replicate (param.length - (Utf8.encode content).length) (0 : UInt8)
        refine ⟨{ fixed := [⟨param.offset, Utf8.encode content ++ padding⟩] },
          by simp only [ofArg, hk, Encoding.text, if_neg hlong, padding], ?_, ?_, by simp⟩
        · simp only [intervals_fixed, List.map_singleton, List.mem_singleton]
          rintro i rfl
          simp only [Patch.interval, List.length_append, List.length_replicate, Param.stop, padding]
          omega
        · exact List.pairwise_singleton _ _
  | array count signed hex =>
    obtain ⟨hcount_pos, hdivides⟩ := hp.array count signed hex hk
    simp only [hk, Record.widthFits, decide_eq_true_eq] at hwidth
    cases arg with
    | expr value | text content => simp [Code.checkArg, hk] at hcheck
    | list items =>
      simp only [Code.checkArg, hk] at hcheck
      split at hcheck
      · simp at hcheck
      · rename_i hcount
        have hcount : items.length = count := by omega
        refine ⟨_, by simp only [ofArg, hk]; rw [if_pos hcount], ?_⟩
        refine ForParam.ints ?_ hwidth ?_ hexprs
        · -- The parameter is a multiple of its elements, and not empty.
          exact Nat.div_pos (Nat.le_of_dvd hlength (Nat.dvd_of_mod_eq_zero hdivides)) hcount_pos
        · rw [hcount]
          exact Nat.mul_div_le ..

/-- The parts of arguments that suit their parameters. -/
structure ForParams (pairs : List (Param × Arg)) (l : Layout) : Prop where
  within : ∀ i ∈ l.intervals, ∃ pair ∈ pairs, pair.1.offset ≤ i.start ∧ i.stop ≤ pair.1.stop
  apart : l.intervals.Pairwise Interval.Apart
  sound : ∀ f ∈ l.fields, f.Sound

theorem ofArgs_of_checkArg {pairs : List (Param × Arg)} (hp : ∀ pair ∈ pairs, pair.1.Proper)
    (harg : ∀ pair ∈ pairs, pair.2.Proper)
    (hexprs : ∀ pair ∈ pairs, ∀ e ∈ pair.2.exprs, e.WellFormed)
    (hcheck : ∀ pair ∈ pairs, code.checkArg pair.1 pair.2 = .ok ())
    (happart : pairs.Pairwise fun a b => a.1.overlaps b.1 = false) :
    ∃ l, ofArgs code pairs = .ok l ∧ ForParams pairs l := by
  induction pairs with
  | nil => exact ⟨{}, rfl, by simp [intervals], by simp [intervals], by simp⟩
  | cons pair pairs ih =>
    obtain ⟨param, arg⟩ := pair
    obtain ⟨hfirst, hrest⟩ := List.pairwise_cons.1 happart
    simp only [List.forall_mem_cons] at hp harg hexprs hcheck
    obtain ⟨a, ha, haf⟩ := ofArg_of_checkArg hp.1 harg.1 hexprs.1 hcheck.1
    obtain ⟨b, hb, hbf⟩ := ih hp.2 harg.2 hexprs.2 hcheck.2 hrest
    refine ⟨a.append b, by simp only [ofArgs, ha, hb, Except.map], ?_, ?_, ?_⟩
    · intro i hi
      rw [(intervals_append a b).mem_iff, List.mem_append] at hi
      rcases hi with hi | hi
      · exact ⟨(param, arg), .head _, haf.within i hi⟩
      · obtain ⟨other, hother, hin⟩ := hbf.within i hi
        exact ⟨other, .tail _ hother, hin⟩
    · refine apart_append haf.apart hbf.apart fun i hi j hj => ?_
      obtain ⟨other, hother, hj⟩ := hbf.within j hj
      have hi := haf.within i hi
      -- Each part lies in its parameter, and the parameters do not overlap.
      have hno : other.1.stop ≤ param.offset ∨ param.stop ≤ other.1.offset :=
        Param.overlaps_eq_false_iff.1 (hfirst other hother)
      unfold Interval.Apart
      omega
    · intro f hf
      rcases List.mem_append.1 hf with hf | hf
      · exact haf.sound f hf
      · exact hbf.sound f hf

/-! ## Statements -/

theorem checkArgs_eq_ok_iff :
    code.checkArgs args = .ok () ↔ args.length = code.params.length ∧
      ∀ pair ∈ code.params.zip args, code.checkArg pair.1 pair.2 = .ok () := by
  unfold Code.checkArgs
  split
  · rename_i hlength
    simp [hlength]
  · rename_i hlength
    rw [Except.forM_eq_ok_iff]
    exact ⟨fun h => ⟨by omega, h⟩, fun h => h.2⟩

/-- The parts of a use of a code. -/
theorem ofStatement_code {index : Nat} (hat : registry.at? index = some code)
    (hcode : code.WellFormed) (hcheck : code.checkArgs args = .ok ())
    (hargs : ∀ arg ∈ args, arg.Proper)
    (hexprs : ∀ e ∈ (Statement.code index args).exprs, e.WellFormed) (size : Nat) :
    ∃ l, ofArgs code (code.params.zip args) = .ok l ∧
      ofStatement (.code index args) size registry =
        .ok (append { fixed := [⟨0, code.idBytes⟩] } l) ∧
      Neat code.length (append { fixed := [⟨0, code.idBytes⟩] } l) ∧ ∀ f ∈ l.fields, f.Sound := by
  have hparam : ∀ pair ∈ code.params.zip args, pair.1 ∈ code.params ∧ pair.2 ∈ args :=
    fun pair hpair => List.of_mem_zip hpair
  obtain ⟨hlength, hsuits⟩ := checkArgs_eq_ok_iff.1 hcheck
  have hzip : (code.params.zip args).map Prod.fst = code.params :=
    List.map_fst_zip (Nat.le_of_eq hlength.symm)
  obtain ⟨l, hl, hfor⟩ := ofArgs_of_checkArg
    (fun pair hpair => hcode.proper _ (hparam pair hpair).1)
    (fun pair hpair => hargs _ (hparam pair hpair).2)
    (fun pair hpair e he => hexprs e (List.mem_flatMap.2 ⟨_, (hparam pair hpair).2, he⟩))
    hsuits (List.pairwise_map.1 (hzip ▸ hcode.apart))
  -- The id stands before all parameters.
  have hid : ({ fixed := [⟨0, code.idBytes⟩] } : Layout).intervals = [⟨0, code.idLength⟩] := by
    simp [intervals_fixed, Patch.interval, Code.idBytes]
  refine ⟨l, hl, by simp only [ofStatement, hat, hl, Except.map], ⟨?_, ?_⟩, hfor.sound⟩
  · intro i hi
    rw [(intervals_append _ l).mem_iff, List.mem_append, hid, List.mem_singleton] at hi
    rcases hi with rfl | hi
    · exact hcode.idLength_le
    · obtain ⟨pair, hpair, _, hstop⟩ := hfor.within i hi
      exact Nat.le_trans hstop (hcode.stop_le _ (hparam pair hpair).1)
  · refine apart_append (by simp [hid]) hfor.apart fun i hi j hj => ?_
    rw [hid, List.mem_singleton] at hi
    obtain ⟨pair, hpair, hstart, _⟩ := hfor.within j hj
    have hafter := hcode.after_id _ (hparam pair hpair).1
    subst hi
    exact .inl (Nat.le_trans hafter hstart)

/-- Numbers one after the other, as all that a statement writes. -/
theorem Neat.ints (width : Nat) (values : List Expr) {size : Nat} (h : values.length * width ≤ size) :
    Neat size { fields := Field.ints 0 width values } where
  within i hi := by
    have hstop := (ints_within hi).2
    omega
  apart := ints_apart ..

/-- The parts of a sound statement that writes. -/
theorem ofStatement_of_step (hr : registry.WellFormed) {statement : Statement}
    (hs : statement.Sound registry) {cursor next : Cursor} {symbols : SymbolSource} {span : Span}
    (hstep : cursor.step statement registry symbols = .ok (some span, next)) :
    ∃ l, ofStatement statement span.size registry = .ok l ∧ Neat span.size l ∧
      ∀ f ∈ l.fields, f.Sound := by
  obtain ⟨_, _, hwrites⟩ := Cursor.writes_of_step hstep
  cases hwrites with
  | @code index args code hat hsize =>
    obtain ⟨hargs, _, hat', hcheck⟩ := hs.code index args rfl
    -- The code that the step has found is the one that the arguments were checked against.
    obtain rfl := Option.some.inj (hat.symm.trans hat')
    obtain ⟨l, _, hl, hneat, hsound⟩ := ofStatement_code hat (hr.codes index code hat).1 hcheck hargs
      hs.exprs span.size
    exact ⟨_, hl, hsize ▸ hneat, hsound⟩
  | @data width values hsize =>
    obtain ⟨hpos, hle⟩ := hs.width width values rfl
    exact ⟨_, rfl, Neat.ints width values (Nat.le_of_eq (by rw [hsize, Nat.mul_comm])),
      fun f hf => Field.sound_of_mem_ints hpos hle hs.exprs hf⟩
  | @pointers values hsize =>
    refine ⟨_, rfl, ⟨?_, ?_⟩, ?_⟩
    · simp only [intervals_fields, List.mem_map, List.mem_mapIdx]
      rintro _ ⟨_, ⟨i, hi, rfl⟩, rfl⟩
      simp only [Field.interval, Field.pointer]
      omega
    · rw [intervals_fields, List.pairwise_map]
      exact Field.apart_of_mapIdx 0 4 values _ fun i _ => by simp [Field.interval, Field.pointer]
    · intro f hf
      simp only [List.mem_mapIdx] at hf
      obtain ⟨i, hi, rfl⟩ := hf
      exact ⟨by simp [Field.pointer], by simp [Field.pointer],
        fun e heq => FieldSource.expr.inj heq ▸ hs.exprs _ (List.getElem_mem hi), fun _ _ heq => by cases heq⟩
  | @fill count value =>
    have hvalue : ∀ e ∈ List.replicate span.size value, e.WellFormed := by
      intro e he
      rw [List.eq_of_mem_replicate he]
      exact hs.exprs value (by simp [Statement.exprs])
    exact ⟨_, rfl, Neat.ints 1 _ (by simp),
      fun f hf => Field.sound_of_mem_ints (by decide) (by decide) hvalue hf⟩
  | @bytes content hsize =>
    refine ⟨_, rfl, ⟨?_, ?_⟩, by simp⟩ <;> simp [intervals_fixed, Patch.interval, hsize]

end Layout

end CartScript
