import CartScript.Proofs.Listing.Spelling

/-!
# Listings as statements

What the entries of a listing say when they are read as a script.
-/

namespace CartScript

/-- The names of directives. -/
def Keyword.names : List String :=
  ["ORG", "PUSH", "POP", "ALIGN", "BYTE", "SHORT", "WORD", "POIN", "FILL", "PROTECT", "ASSERT",
    "MESSAGE", "WARNING", "ERROR"]

/-- Other names are not keywords. -/
theorem Keyword.ofName?_eq_none {name : String} (h : name ∉ names) : ofName? name = none := by
  rw [ofName?, List.lookup_eq_none_iff]
  intro pair hpair
  have hname : pair.1 ∈ names := (List.mem_map_of_mem (f := Prod.fst) hpair :)
  rw [bne_iff_ne]
  rintro rfl
  exact h hname

namespace Listing

open Parsing

/-! ## Operands -/

/-- The expression of a number. -/
def numberExpr (value : Int64) : Expr :=
  let magnitude := Int64.ofNat value.toInt.natAbs
  if value < 0 then ⟨[.number magnitude, .unary .minus]⟩ else .constant magnitude

theorem isExpr_numberWord {limit : Nat} (hlimit : 3 ≤ limit) (value : Int64) :
    IsExpr limit (numberWord value) (numberExpr value) := by
  unfold numberWord numberExpr
  split
  · exact isExpr_negative hlimit _
  · exact isExpr_number hlimit _

/-- The label of an offset is neither a keyword nor the current offset. -/
theorem label_ne {name : String} (h : name.toList.head? ≠ some 'l') (offset : UInt32) :
    label offset ≠ name := by
  rintro rfl
  simp [label] at h

theorem ofName?_label (offset : UInt32) : Keyword.ofName? (label offset) = none := by
  refine Keyword.ofName?_eq_none fun hmem => ?_
  have hall : ∀ name ∈ Keyword.names, name.toList.head? ≠ some 'l' := by decide
  exact label_ne (hall _ hmem) offset rfl

namespace Operand

/-- The argument that an operand is read as. -/
def arg (base : UInt32) : Operand → Arg
  | .number value _ => .expr (numberExpr value)
  | .address raw => .expr (.constant (Int64.ofNat (addressValue raw base)))
  | .label offset => .expr ⟨[.label (Listing.label offset)]⟩
  | .text content => .text content
  | .list values _ => .list (values.map numberExpr)

/-- How many items an operand has, if it is a list. -/
def count : Operand → Nat
  | .list values _ => values.length
  | _ => 0

/-- The argument that an operand is read as. -/
theorem isArg {limit : Nat} (hlimit : 3 ≤ limit) {operand : Operand} (h : operand.Writable)
    (hcount : operand.count ≤ limit) (base : UInt32) :
    IsArg limit (operand.word base) (operand.arg base) := by
  have hone : 1 ≤ limit := by omega
  cases operand with
  | number value hex => exact (isExpr_numberWord hlimit value).isArg hone
  | address raw => exact (isExpr_number hlimit _).isArg hone
  | label offset => exact (isExpr_label hlimit (label_ne (by decide) offset)).isArg hone
  | text content => exact isArg_text hone content
  | list values hex =>
    exact isArg_list hone h.1 (fun value _ => isExpr_numberWord hlimit value) hcount

end Operand

/-! ## Entries -/

namespace Entry

/-- The statements that an entry is read as. -/
def statements (base : UInt32) : Entry → List Statement
  | .blank => []
  | .org offset => [.org (.constant (Int64.ofNat offset.toNat))]
  | .label offset => [.label (Listing.label offset)]
  | .code line => [.code line.code.index (line.operands.map (Operand.arg base))]

/-- Lines that can be read back: their codes are found by their names, and the arguments suit them. -/
def Readable (env : Environment) (base : UInt32) : Entry → Prop
  | .code line => Keyword.ofName? line.code.name = none ∧
      env.registry.get? line.code.name env.game = some line.code ∧
      line.code.checkArgs (line.operands.map (Operand.arg base)) = .ok () ∧
      line.operands.length ≤ env.limit ∧ ∀ operand ∈ line.operands, operand.count ≤ env.limit
  | _ => True

variable {env : Environment} (hlimit : 3 ≤ env.limit) {base : UInt32}

include hlimit

/-- The first statement of an entry, and for a label the end of its line. -/
theorem makes {entry : Entry} (hwritable : entry.Writable) (hreadable : entry.Readable env base)
    {rest : List Token} {later : List Statement} {rounds : Nat}
    (h : ∀ rounds', rounds ≤ rounds' + 2 →
      Makes (Supply.Ahead rest) (Parsing.statements env rounds') () later (Supply.Faces []))
    (hrounds : 2 ≤ rounds) :
    Makes (Supply.Ahead (entry.word base ++ .lineEnd :: rest)) (Parsing.statements env rounds) ()
      (entry.statements base ++ later) (Supply.Faces []) := by
  have hone : 1 ≤ env.limit := by omega
  obtain ⟨rounds, rfl⟩ := Nat.exists_eq_add_of_le' hrounds
  cases entry with
  | blank => exact (makes_statement_lineEnd hone rest).statements (h _ (by omega))
  | org offset =>
    exact (makes_org hone (isExpr_number hlimit _) rest).statements (h _ (by omega))
  | label offset =>
    exact (makes_label hone (ofName?_label offset) (.lineEnd :: rest)).statements
      ((makes_statement_lineEnd hone rest).statements (h _ (by omega)))
  | code line =>
    obtain ⟨_, hcount, hoperands⟩ := hwritable
    obtain ⟨hname, hget, hcheck, hlength, hitems⟩ := hreadable
    simp only [word, statements]
    split
    · -- A code without parameters has no parentheses.
      rename_i hparams
      have hnil : line.operands = [] := by
        rw [← List.length_eq_zero_iff, hcount]
        exact List.isEmpty_iff_length_eq_zero.1 hparams
      rw [hnil] at hcheck ⊢
      exact (makes_code hone hname hget [] (by simp) (makes_args_nil hone rest)
        hcheck).statements (h _ (by omega))
    · rename_i hparams
      have hargs := makes_args hone (operands_ne_nil hcount hparams)
        (fun operand ho => Operand.isArg hlimit (hoperands operand ho) (hitems operand ho) base)
        hlength (.lineEnd :: rest)
      rw [List.append_cons, ← List.cons_append] at hargs
      refine (makes_code hone hname hget _ ?_ hargs hcheck).statements (h _ (by omega))
      simp

end Entry

/-- The entries of a listing are read as their statements. -/
theorem makes_entries {env : Environment} (hlimit : 3 ≤ env.limit) {base : UInt32}
    {entries : List Entry} (hwritable : ∀ e ∈ entries, e.Writable)
    (hreadable : ∀ e ∈ entries, e.Readable env base) {rounds : Nat}
    (hrounds : 2 * entries.length + 1 ≤ rounds) :
    Makes (Supply.Ahead (words base entries)) (Parsing.statements env rounds) ()
      (entries.flatMap (Entry.statements base)) (Supply.Faces []) := by
  induction entries generalizing rounds with
  | nil => exact makes_statements_end (by omega) hrounds
  | cons entry entries ih =>
    obtain ⟨hwritable, hwritables⟩ := List.forall_mem_cons.1 hwritable
    obtain ⟨hreadable, hreadables⟩ := List.forall_mem_cons.1 hreadable
    rw [List.length_cons] at hrounds
    rw [words, List.flatMap_cons, List.append_assoc, List.singleton_append, List.flatMap_cons]
    exact Entry.makes hlimit hwritable hreadable
      (fun rounds' h => ih hwritables hreadables (by omega)) (by omega)

/-- The text of a listing is read without complaint as the statements of its entries. -/
theorem parse_render {env : Environment} {base : UInt32} {labels : List UInt32} {blocks : List Block}
    (hwritable : ∀ e ∈ entries labels blocks, e.Writable)
    (hreadable : ∀ e ∈ entries labels blocks, e.Readable env base)
    (hlimit : 2 * (entries labels blocks).length + 3 ≤ env.limit) (name : String) :
    ∃ program : Program,
      program.map Located.value = (entries labels blocks).flatMap (Entry.statements base) ∧
      ({ name, content := Utf8.encode (render base labels blocks) } : Script).parse env [] =
        ⟨.ok program, []⟩ := by
  rw [render_eq]
  exact Script.parse_of_spells (spells_entries hwritable)
    (makes_entries (by omega) hwritable hreadable (by omega))

end Listing

end CartScript
