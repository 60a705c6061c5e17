import CartScript.Proofs.Assembly.Agreement
import CartScript.Proofs.FreeSpace

/-!
# Data in free space

The blocks that an assembly places lie apart from each other, from the bytes of all statements and
from protected bytes.  They held nothing but free bytes before, and each of them belongs to a field.
-/

namespace CartScript

/-! ## Sizes -/

namespace Arg

variable {element : Nat} {bytes : List UInt8} {symbols : Symbols} {offset : UInt32} {data : Arg}

theorem length_elementBytes {items : List Expr}
    (h : elementBytes element symbols offset items = .ok bytes) :
    bytes.length = items.length * element := by
  induction items generalizing offset bytes with
  | nil =>
    rw [elementBytes, Except.ok.injEq] at h
    simp [← h]
  | cons item items ih =>
    rw [elementBytes] at h
    split at h
    · simp at h
    · rename_i first hfirst
      obtain ⟨rest, hrest, rfl⟩ := Except.map_eq_ok_iff.1 h
      obtain ⟨value, _, hint⟩ := Except.bind_eq_ok_iff.1 hfirst
      rw [List.length_append, Encoding.length_int hint, ih hrest, List.length_cons, Nat.succ_mul,
        Nat.add_comm]

/-- The bytes of data are as many as were asked for. -/
theorem length_inlineBytes (h : data.inlineBytes element offset symbols = .ok bytes) :
    bytes.length = data.inlineSize element := by
  cases data with
  | expr value =>
    rw [inlineBytes, Except.ok.injEq] at h
    simp [← h, inlineSize]
  | list items => exact length_elementBytes h
  | text content =>
    rw [inlineBytes, Except.ok.injEq] at h
    simp [← h, inlineSize, Utf8.length_encode]

/-- Data that stands in free space takes room. -/
theorem Inlined.inlineSize_pos (h : data.Inlined element) : 1 ≤ data.inlineSize element := by
  cases data with
  | expr value => exact absurd rfl (h.inlined value)
  | text content => simp [inlineSize]
  | list items =>
    have hitems : 0 < items.length := List.length_pos_iff.2 h.proper
    exact Nat.mul_pos hitems h.element_pos

end Arg

namespace Assembly

namespace InlineBlock

/-- How many bytes a block takes. -/
def size (b : InlineBlock) : Nat := b.data.inlineSize b.element

/-- The offsets of a block; none if it has no place. -/
def interval (b : InlineBlock) : Interval :=
  match b.offset with
  | some offset => ⟨offset.toNat, offset.toNat + b.size⟩
  | none => ⟨0, 0⟩

theorem contains_iff {b : InlineBlock} {i : Nat} : b.interval.contains i = true ↔
    ∃ offset, b.offset = some offset ∧ offset.toNat ≤ i ∧ i < offset.toNat + b.size := by
  rw [Interval.contains_iff, interval]
  cases b.offset <;> simp

end InlineBlock

/-! ## The start -/

theorem isTaken_foldl_reserve {α : Type} (interval : α → Interval) (l : List α) {a : Allocator}
    (ha : a.Sorted) :
    (l.foldl (fun a x => a.reserve (interval x)) a).Sorted ∧
      ∀ i, (l.foldl (fun a x => a.reserve (interval x)) a).isTaken i = true ↔
        a.isTaken i = true ∨ ∃ x ∈ l, (interval x).contains i = true := by
  induction l generalizing a with
  | nil => exact ⟨ha, by simp⟩
  | cons x l ih =>
    obtain ⟨hsorted, htaken⟩ := ih (ha.reserve (interval x))
    refine ⟨hsorted, fun i => ?_⟩
    rw [List.foldl_cons, htaken, Allocator.isTaken_reserve ha, Bool.or_eq_true]
    simp only [List.mem_cons, exists_eq_or_imp]
    -- What was taken is taken, and what the first interval contains is taken before the rest is.
    rw [or_assoc, or_left_comm]

theorem foldl_reserve_eq {α : Type} (interval : α → Interval) (l : List α) (a : Allocator) :
    (l.foldl (fun a x => a.reserve (interval x)) a).image = a.image ∧
      (l.foldl (fun a x => a.reserve (interval x)) a).policy = a.policy := by
  induction l generalizing a with
  | nil => exact ⟨rfl, rfl⟩
  | cons x l ih => simpa using ih (a.reserve (interval x))

namespace Placing

/-- At the start, the bytes of statements and protected bytes are taken. -/
theorem start_spec (context : Context) (image : Image) (r : Report) (spans : List Span)
    (protections : List Protection) :
    let free := (start context image r spans protections).allocator
    free.Sorted ∧ free.image = image ∧ free.policy = context.freeSpace ∧
      ∀ i, free.isTaken i = true ↔ (∃ span ∈ spans, span.interval.contains i = true) ∨
        ∃ p ∈ protections, p.interval.contains i = true := by
  intro free
  have hwhole : ({ image, policy := context.freeSpace } : Allocator).Sorted := .nil
  obtain ⟨hspans, htaken⟩ := isTaken_foldl_reserve Span.interval spans hwhole
  obtain ⟨hsorted, htaken'⟩ := isTaken_foldl_reserve Protection.interval protections hspans
  have hfirst := foldl_reserve_eq Span.interval spans
    { image, policy := context.freeSpace, taken := [] }
  have hsecond := foldl_reserve_eq Protection.interval protections
    (spans.foldl (fun a span => a.reserve span.interval) { image, policy := context.freeSpace })
  refine ⟨hsorted, hsecond.1.trans hfirst.1, hsecond.2.trans hfirst.2, fun i => ?_⟩
  rw [show free.isTaken i = true ↔ _ from htaken' i, htaken]
  simp [Allocator.isTaken]

/-! ## Placing keeps its promises -/

/-- What is promised about the blocks placed so far, where `free` is the allocator at the start. -/
structure Grants (free : Allocator) (p : Placing) : Prop where
  sorted : p.allocator.Sorted
  image : p.allocator.image = free.image
  policy : p.allocator.policy = free.policy
  taken : ∀ i, p.allocator.isTaken i = true ↔
    free.isTaken i = true ∨ ∃ b ∈ p.blocks.toList, b.interval.contains i = true
  free : ∀ b ∈ p.blocks.toList, ∀ i, b.interval.contains i = true → free.isFree i = true ∧ i ≠ 0
  apart : p.blocks.toList.Pairwise fun b c =>
    ∀ i, b.interval.contains i = true → c.interval.contains i = false

variable {free : Allocator} {p : Placing}

theorem Grants.start (hp : p.allocator = free) (hs : free.Sorted) (hb : p.blocks = #[]) :
    p.Grants free := by
  subst hp
  exact ⟨hs, rfl, rfl, by simp [hb], by simp [hb], by simp [hb]⟩

/-- Data that is placed becomes a block, also if there is no place for it. -/
theorem toList_blocks_place (p : Placing) (position : Position) (data : Arg) (element : Nat) :
    (p.place position data element).2.blocks.toList = p.blocks.toList ++
      [{ position, data, element, offset := (p.place position data element).1 }] := by
  simp only [place]
  split
  · exact Array.toList_push
  · cases p.allocator.allocateData (data.inlineSize element) <;> exact Array.toList_push

/-- Where data is placed: nowhere, or in bytes that the allocator grants. -/
theorem place_cases (hs : p.allocator.Sorted) (hlimit : p.allocator.image.size ≤ 2 ^ 32)
    (position : Position) (data : Arg) (element : Nat) : let block : InlineBlock :=
      { position, data, element, offset := (p.place position data element).1 }
    (∀ i, block.interval.contains i = false) ∧
        (p.place position data element).2.allocator = p.allocator ∨
      ∃ offset : UInt32, block.offset = some offset ∧
        p.allocator.Granted offset.toNat block.size ∧
        (p.place position data element).2.allocator = p.allocator.reserve block.interval := by
  simp only [place]
  by_cases hsize : data.inlineSize element = 0
  · refine .inl ⟨fun i => ?_, by simp [hsize]⟩
    rw [Interval.contains_eq_false_iff]
    simp [hsize, InlineBlock.interval, InlineBlock.size]
  · simp only [if_neg hsize]
    cases hallocate : p.allocator.allocateData (data.inlineSize element) with
    | error fault =>
      -- Without a place the block has no bytes at all.
      refine .inl ⟨fun i => ?_, rfl⟩
      rw [Interval.contains_eq_false_iff]
      exact .inr (Nat.zero_le i)
    | ok result =>
      obtain ⟨offset, next⟩ := result
      obtain ⟨hgranted, rfl⟩ :=
        Allocator.granted_of_allocateData hs (Nat.one_le_iff_ne_zero.2 hsize) hlimit hallocate
      exact .inr ⟨offset, rfl, hgranted, rfl⟩

theorem Grants.place (hlimit : free.image.size ≤ 2 ^ 32) (h : p.Grants free) (position : Position)
    (data : Arg) (element : Nat) : (p.place position data element).2.Grants free := by
  have hcases := place_cases h.sorted (h.image ▸ hlimit) position data element
  have hlist := p.toList_blocks_place position data element
  -- From here on only the two cases matter, not how the block came about.
  generalize ({ position, data, element, offset := (p.place position data element).1 } :
    InlineBlock) = block at hlist hcases
  rcases hcases with ⟨hnone, hsame⟩ | ⟨offset, hoffset, hgranted, hreserved⟩
  · -- No byte is handed out.
    refine ⟨hsame ▸ h.sorted, hsame ▸ h.image, hsame ▸ h.policy, fun i => ?_, ?_, ?_⟩
    · simp [hsame, h.taken, hlist, hnone]
    · rw [hlist]
      intro b hb i hi
      rcases List.mem_append.1 hb with hb | hb
      · exact h.free b hb i hi
      · rw [List.mem_singleton.1 hb, hnone] at hi
        simp at hi
    · rw [hlist, List.pairwise_append]
      refine ⟨h.apart, List.pairwise_singleton _ _, fun b _ c hc i _ => ?_⟩
      rw [List.mem_singleton.1 hc, hnone]
  · have hfree : ∀ i, block.interval.contains i = true →
        p.allocator.isFree i = true ∧ i ≠ 0 := by
      intro i hi
      obtain ⟨offset', hoffset', hstart, hstop⟩ := InlineBlock.contains_iff.1 hi
      obtain rfl := Option.some.inj (hoffset.symm.trans hoffset')
      exact ⟨hgranted.free i hstart hstop, by have := hgranted.pos; omega⟩
    -- What is free now was free at the start, and lies in no block placed before.
    have hnow : ∀ i, p.allocator.isFree i = true → free.isFree i = true ∧
        ∀ b ∈ p.blocks.toList, b.interval.contains i = false := by
      intro i hi
      simp only [Allocator.isFree, Bool.and_eq_true, Bool.not_eq_true', h.image, h.policy] at hi ⊢
      have htaken := mt (h.taken i).2 (by simp [hi.2])
      simp only [not_or, not_exists, not_and, Bool.not_eq_true] at htaken
      exact ⟨⟨hi.1, htaken.1⟩, htaken.2⟩
    refine ⟨hreserved ▸ h.sorted.reserve _, ?_, ?_, fun i => ?_, ?_, ?_⟩
    · rw [hreserved, Allocator.image_reserve, h.image]
    · rw [hreserved, Allocator.policy_reserve, h.policy]
    · rw [hreserved, Allocator.isTaken_reserve h.sorted, Bool.or_eq_true, h.taken, hlist]
      simp only [List.mem_append, List.mem_singleton]
      constructor
      · rintro (hi | hi | ⟨b, hb, hi⟩)
        · exact .inr ⟨block, .inr rfl, hi⟩
        · exact .inl hi
        · exact .inr ⟨b, .inl hb, hi⟩
      · rintro (hi | ⟨b, hb | rfl, hi⟩)
        · exact .inr (.inl hi)
        · exact .inr (.inr ⟨b, hb, hi⟩)
        · exact .inl hi
    · rw [hlist]
      intro b hb i hi
      rcases List.mem_append.1 hb with hb | hb
      · exact h.free b hb i hi
      · rw [List.mem_singleton.1 hb] at hi
        exact ⟨(hnow i (hfree i hi).1).1, (hfree i hi).2⟩
    · rw [hlist, List.pairwise_append]
      refine ⟨h.apart, List.pairwise_singleton _ _, fun b hb c hc i hi => ?_⟩
      rw [List.mem_singleton.1 hc, ← Bool.not_eq_true]
      intro hcovered
      -- A byte of an earlier block is taken, so it is not handed out again.
      rw [(hnow i (hfree i hcovered).1).2 b hb] at hi
      simp at hi

theorem Grants.fields (hlimit : free.image.size ≤ 2 ^ 32) (position : Position) (fs : List Field)
    (h : p.Grants free) : (Placing.fields position fs p).2.Grants free := by
  induction fs generalizing p with
  | nil => exact h
  | cons f fs ih =>
    rw [Placing.fields]
    cases f.source with
    | expr value => exact ih h
    | inline data element => exact ih (h.place hlimit position data element)

/-- Placing the data of a program keeps the promise. -/
theorem Grants.placeTrail (hlimit : free.image.size ≤ 2 ^ 32) (registry : Registry)
    (trail : List Passage) (h : p.Grants free) :
    (Assembly.placeTrail registry trail p).2.Grants free := by
  induction trail generalizing p with
  | nil => exact h
  | cons passage trail ih =>
    rw [Assembly.placeTrail]
    split
    · exact ih h
    · exact ih (h.fields hlimit passage.position _)

end Placing

/-! ## Blocks and fields belong together -/

/-- Whether a field has data in free space. -/
def PlacedField.isInline (f : PlacedField) : Bool :=
  match f.source with
  | .expr _ => false
  | .inline _ _ => true

/-- The field has the data of the block, and the offset of the block for its address. -/
def PlacedField.Owns (f : PlacedField) (b : InlineBlock) : Prop :=
  f.source = .inline b.data b.element ∧ b.offset.getD 0 = f.address

/-- The fields with data, each with a block of its own in the same order. -/
def BlocksFor (fields : List PlacedField) (blocks : List InlineBlock) : Prop :=
  List.Forall₂ PlacedField.Owns (fields.filter PlacedField.isInline) blocks

namespace BlocksFor

variable {fs gs : List PlacedField} {bs cs : List InlineBlock} {f : PlacedField} {b : InlineBlock}

/-- Each field with data has a block. -/
theorem block (h : BlocksFor fs bs) (hf : f ∈ fs) {data : Arg} {element : Nat}
    (hsource : f.source = .inline data element) :
    ∃ b ∈ bs, b.data = data ∧ b.element = element ∧ b.offset.getD 0 = f.address := by
  have hinline : f.isInline = true := by rw [PlacedField.isInline, hsource]
  obtain ⟨b, hb, howns, haddress⟩ := h.exists_mem (List.mem_filter.2 ⟨hf, hinline⟩)
  rw [hsource] at howns
  injection howns with hdata helement
  exact ⟨b, hb, hdata.symm, helement.symm, haddress⟩

/-- Each block has a field. -/
theorem field (h : BlocksFor fs bs) (hb : b ∈ bs) : ∃ f ∈ fs, f.Owns b := by
  obtain ⟨f, hf, howns⟩ := h.flip.exists_mem hb
  exact ⟨f, List.mem_of_mem_filter hf, howns⟩

theorem append (h : BlocksFor fs bs) (h' : BlocksFor gs cs) : BlocksFor (fs ++ gs) (bs ++ cs) := by
  rw [BlocksFor, List.filter_append]
  exact List.rel_append h h'

theorem cons (hf : f.Owns b) (h : BlocksFor fs bs) : BlocksFor (f :: fs) (b :: bs) := by
  have hinline : f.isInline = true := by rw [PlacedField.isInline, hf.1]
  rw [BlocksFor, List.filter_cons_of_pos hinline]
  exact .cons hf h

theorem cons_expr {value : Expr} (hf : f.source = .expr value) (h : BlocksFor fs bs) :
    BlocksFor (f :: fs) bs := by
  have hinline : ¬ f.isInline = true := by rw [PlacedField.isInline, hf]; simp
  rw [BlocksFor, List.filter_cons_of_neg hinline]
  exact h

end BlocksFor

namespace Placing

/-- Data gets a place, or that is reported. -/
theorem isSome_place {p : Placing} {position : Position} {data : Arg} {element : Nat}
    (h : Event.Faultless (p.placeEvents position data element)) :
    (p.place position data element).1.isSome = true := by
  simp only [place, placeEvents] at h ⊢
  by_cases hsize : data.inlineSize element = 0
  · simp [hsize]
  · simp only [if_neg hsize] at h ⊢
    obtain ⟨result, hresult⟩ := Event.exists_of_faultless h
    rw [hresult]
    rfl

/-- The fields of a statement get blocks, and a block without a place is reported. -/
theorem blocksFor_fields (position : Position) (fs : List Field) (p : Placing) :
    ∃ new, (fields position fs p).2.blocks.toList = p.blocks.toList ++ new ∧
      BlocksFor (fields position fs p).1 new ∧
      (Event.Faultless (fieldsEvents position fs p) → ∀ b ∈ new, b.offset.isSome = true) := by
  induction fs generalizing p with
  | nil => exact ⟨[], by simp [fields], .nil, by simp⟩
  | cons f fs ih =>
    rw [fields, fieldsEvents]
    cases hsource : f.source with
    | expr value =>
      obtain ⟨new, hblocks, hfor, hplaced⟩ := ih p
      exact ⟨new, hblocks, hfor.cons_expr hsource, hplaced⟩
    | inline data element =>
      obtain ⟨new, hblocks, hfor, hplaced⟩ := ih (p.place position data element).2
      refine ⟨{ position, data, element, offset := (p.place position data element).1 } :: new, ?_,
        hfor.cons ⟨hsource, rfl⟩, fun h => ?_⟩
      · rw [hblocks, toList_blocks_place, List.append_assoc, List.singleton_append]
      · -- No fault in all the events means none for this field and none for the others.
        obtain ⟨hfirst, hrest⟩ := Event.faultless_append.1 h
        exact List.forall_mem_cons.2 ⟨isSome_place hfirst, hplaced hrest⟩

end Placing

/-- The fields of an item. -/
def Item.fields (item : Item) : List PlacedField := item.piece.toList.flatMap Piece.fields

/-- The fields of a program get blocks, and a block without a place is reported. -/
theorem blocksFor_placeTrail (registry : Registry) (trail : List Passage) (p : Placing) :
    ∃ new, (placeTrail registry trail p).2.blocks.toList = p.blocks.toList ++ new ∧
      BlocksFor ((placeTrail registry trail p).1.flatMap Item.fields) new ∧
      (Event.Faultless (placeTrailEvents registry trail p) →
        ∀ b ∈ new, b.offset.isSome = true) := by
  induction trail generalizing p with
  | nil => exact ⟨[], by simp [placeTrail], .nil, by simp⟩
  | cons passage trail ih =>
    rw [placeTrail, placeTrailEvents]
    cases passage.writes? registry with
    | none =>
      obtain ⟨new, hblocks, hfor, hplaced⟩ := ih p
      exact ⟨new, hblocks, by simpa [Item.fields] using hfor, hplaced⟩
    | some written =>
      obtain ⟨span, layout⟩ := written
      obtain ⟨first, hfirst, hfor, hplaced⟩ :=
        Placing.blocksFor_fields passage.position layout.fields p
      obtain ⟨rest, hrest, hfor', hplaced'⟩ :=
        ih (Placing.fields passage.position layout.fields p).2
      refine ⟨first ++ rest, ?_, ?_, fun h => ?_⟩
      · rw [hrest, hfirst, List.append_assoc]
      · simpa [Item.fields] using hfor.append hfor'
      · obtain ⟨hnow, hlater⟩ := Event.faultless_append.1 h
        exact List.forall_mem_append.2 ⟨hplaced hnow, hplaced' hlater⟩

/-- Blocks and fields belong together, and a block without a place is reported. -/
theorem Course.blocksFor (span? : Passage → Option Span) (program : Program) (context : Context)
    (image : Image) :
    let c := along span? program context image
    BlocksFor (c.items.flatMap Item.fields) c.blocks ∧
      (Event.Faultless c.preparing → ∀ b ∈ c.blocks, b.offset.isSome = true) := by
  intro c
  obtain ⟨new, hnew, hfor, hplaced⟩ := blocksFor_placeTrail context.registry c.trail
    (Placing.start context image { log := {} } (c.trail.filterMap span?) c.protections)
  have hblocks : c.blocks = new := hnew
  rw [hblocks]
  refine ⟨hfor, fun h => hplaced ?_⟩
  exact (Event.faultless_append.1 h).2

end Assembly

end CartScript
