import CartScript.Proofs.Registry.Loaded
import CartScript.Proofs.Script.Kept

/-!
# Programs from scripts

A script is read beside itself, and what is read on both sides is sound.  So are the statements of
the program that comes of it.
-/

namespace CartScript

/-- Programs that come from reading a script against a registry. -/
def Program.Parsed (registry : Registry) (program : Program) : Prop :=
  ∃ (script : Script) (env : Environment) (defines : List (String × Int64)),
    env.registry = registry ∧ (script.parse env defines).outcome = .ok program

/-- The statements of a program that was read against a consistent registry are sound. -/
theorem Program.Parsed.sound_of_consistent {registry : Registry} {program : Program}
    (hp : Program.Parsed registry program) (hr : registry.Consistent) :
    ∀ st ∈ program, st.value.Sound registry := by
  obtain ⟨script, env, defines, rfl, h⟩ := hp
  have hkept : Supply.Kept fun _ => True :=
    ⟨fun _ => trivial, fun _ _ => trivial, fun _ _ => trivial, fun _ _ => trivial⟩
  let B := Beside.diagonal hkept (Statement.Sound env.registry)
  have halike : Parsed.Alike B.same (script.parse env defines) (script.parse env defines) := by
    refine Script.parse_alike (X := B.Along B.Between) rfl (fun _ s t _ hst => ?_) ?_ (by simp [h])
    · exact .inr (Parsing.turnRel_diagonal hkept (fun _ _ _ _ _ _ _ _ => trivial)
        (fun _ hsound => hsound hr) hst)
    · exact ⟨⟨rfl, trivial⟩, Script.predefined_near (fun _ => rfl) defines, rfl, .nil, .nil⟩
  have hsame := halike.outcome
  rw [h] at hsame
  exact fun st hst => (List.forall₂_same.1 hsame st hst).2

/-- The statements of a program that was read against a loaded registry are sound. -/
theorem Program.Parsed.sound {registry : Registry} {program : Program}
    (hp : Program.Parsed registry program) (hr : registry.WellFormed) :
    ∀ st ∈ program, st.value.Sound registry :=
  hp.sound_of_consistent hr.consistent

/-! ## A sample

A code with an address, and a script that gives one address by a name that stands further down and
another one by data in free space. -/

namespace Sample

/-- One code with an address. -/
def registry : Registry :=
  { codes := #[{ name := "TALK", id := 16, idLength := 2, length := 8,
                 params := [{ name := "text", offset := 4, length := 4, kind := .pointer 1 }],
                 origin := "codes:1" }]
    names := ⟨[("TALK", [0])]⟩ }

theorem loaded : registry.Loaded := by
  have h : Registry.loadText {} "codes" "TALK, 0x10, 8\n  text, 4, 4, -pointer\n" = .ok registry := by
    decide +kernel
  exact .text h

def program : Program :=
  [⟨⟨"talk", 1, 1⟩, .code 0 [.expr ⟨[.label "data"]⟩]⟩,
    ⟨⟨"talk", 2, 1⟩, .code 0 [.text "Hi"]⟩,
    ⟨⟨"talk", 3, 1⟩, .label "data"⟩,
    ⟨⟨"talk", 4, 1⟩, .data 1 [⟨[.number 1]⟩, ⟨[.label "end"]⟩]⟩,
    ⟨⟨"talk", 5, 1⟩, .label "end"⟩]

theorem parsed : program.Parsed registry := by
  have h : (Script.parse
      ⟨"talk", Utf8.encode "TALK(data)\nTALK(\"Hi\")\ndata:\nBYTE 1, end\nend:\n", none⟩
      { registry } []).outcome = .ok program := by
    decide +kernel
  exact ⟨_, _, _, rfl, h⟩

end Sample

end CartScript
