import CartScript.Proofs.Assembly.Faults

/-!
# The diagnostics of an assembly

An undefined symbol is reported once, however often it is used.  Which of its uses is reported depends
on the engine, but the words do not: they tell the place of the first use in the program.  So both
engines leave the same diagnostics, up to their order and the places of these reports.
-/

namespace CartScript

namespace Event

/-- The diagnostic of an event. -/
def diagnostic : Event → Diagnostic
  | .fault position f => ⟨.error, .script position, f.message⟩
  | .note severity position text => ⟨severity, .script position, text⟩

/-- The symbol that an event reports to be undefined. -/
def undefined? : Event → Option String
  | .fault _ (.unresolvedSymbol name _) => some name
  | _ => none

/-- The events that leave a diagnostic when some undefined symbols have been reported before. -/
def lasting : (reported : List String) → List Event → List Event
  | _, [] => []
  | reported, e :: events =>
    match e.undefined? with
    | none => e :: lasting reported events
    | some name =>
      if reported.contains name then lasting reported events
      else e :: lasting (name :: reported) events

end Event

/-! ## What is recorded -/

namespace Report

/-- An event is recorded unless it is a repeat. -/
theorem record_cases (r : Report) (e : Event) :
    (e.undefined? = none ∧ (r.record e).undefined = r.undefined ∧
        (r.record e).log.entries = r.log.entries ++ [e.diagnostic]) ∨
      ∃ name, e.undefined? = some name ∧
        (r.undefined.contains name = true ∧ r.record e = r ∨
          r.undefined.contains name = false ∧ (r.record e).undefined = name :: r.undefined ∧
            (r.record e).log.entries = r.log.entries ++ [e.diagnostic]) := by
  cases e with
  | note severity position text => exact .inl ⟨rfl, rfl, Log.entries_push ..⟩
  | fault position f =>
    cases f with
    | unresolvedSymbol name firstUse =>
      refine .inr ⟨name, rfl, ?_⟩
      simp only [record, fault]
      cases r.undefined.contains name with
      | true => exact .inl ⟨rfl, rfl⟩
      | false => exact .inr ⟨rfl, rfl, Log.entries_push ..⟩
    | _ => exact .inl ⟨rfl, rfl, Log.entries_push ..⟩

/-- Replaying events adds the diagnostics of those that leave one. -/
theorem entries_recordAll (r : Report) (events : List Event) :
    (r.recordAll events).log.entries =
      r.log.entries ++ (Event.lasting r.undefined events).map Event.diagnostic := by
  induction events generalizing r with
  | nil => simp [Event.lasting]
  | cons e events ih =>
    rw [recordAll_cons, ih, Event.lasting]
    rcases r.record_cases e with ⟨hnone, hundefined, hentries⟩ | ⟨name, hname, hcases⟩
    · simp [hnone, hundefined, hentries]
    · rcases hcases with ⟨hrepeat, hsame⟩ | ⟨hnew, hundefined, hentries⟩
      · simp only [hname, hrepeat, hsame, if_true]
      · simp [hname, hnew, hundefined, hentries, -List.contains_eq_mem]

end Report

/-! ## Independence of the order -/

namespace Event

theorem lasting_sublist (reported : List String) (events : List Event) :
    (lasting reported events).Sublist events := by
  induction events generalizing reported with
  | nil => exact .slnil
  | cons e events ih =>
    rw [lasting]
    split
    · exact (ih reported).cons_cons e
    · split
      · exact (ih reported).cons e
      · exact (ih _).cons_cons e

/-- Events that report no undefined symbol all leave a diagnostic. -/
theorem filter_lasting (reported : List String) (events : List Event) :
    (lasting reported events).filter (·.undefined?.isNone) =
      events.filter (·.undefined?.isNone) := by
  induction events generalizing reported with
  | nil => rfl
  | cons e events ih =>
    rw [lasting]
    split
    · rename_i hnone
      simp [hnone, ih]
    · rename_i name hname
      split
      · simp [hname, ih]
      · simp [hname, ih]

variable {events : List Event} {symbols : Symbols} {name : String}

/-- The undefined symbols that leave a diagnostic are those that had none. -/
theorem mem_undefined_lasting {reported : List String} :
    name ∈ (lasting reported events).filterMap undefined? ↔
      name ∈ events.filterMap undefined? ∧ name ∉ reported := by
  induction events generalizing reported with
  | nil => simp [lasting]
  | cons e events ih =>
    rw [lasting]
    cases hundefined : e.undefined? with
    | none => simpa [hundefined] using ih
    | some other =>
      simp only
      split
      · -- A repeat: its symbol is among those that were reported.
        rename_i hrepeat
        have hin : other ∈ reported := by simpa using hrepeat
        rw [ih, List.filterMap_cons_some hundefined, List.mem_cons]
        constructor
        · exact fun h => ⟨.inr h.1, h.2⟩
        · rintro ⟨rfl | h, hnot⟩
          · exact absurd hin hnot
          · exact ⟨h, hnot⟩
      · rename_i hnew
        have hout : other ∉ reported := by simpa using hnew
        rw [List.filterMap_cons_some hundefined, List.filterMap_cons_some hundefined,
          List.mem_cons, List.mem_cons, ih, List.mem_cons]
        by_cases heq : name = other
        · simp [heq, hout]
        · simp [heq]

/-- An undefined symbol leaves one diagnostic only. -/
theorem nodup_undefined_lasting (reported : List String) (events : List Event) :
    ((lasting reported events).filterMap undefined?).Nodup := by
  induction events generalizing reported with
  | nil => exact List.nodup_nil
  | cons e events ih =>
    rw [lasting]
    cases hundefined : e.undefined? with
    | none => simpa [hundefined] using ih reported
    | some name =>
      simp only
      split
      · exact ih reported
      · -- From here on the symbol is among those that were reported.
        rw [List.filterMap_cons_some hundefined]
        refine List.nodup_cons.2 ⟨fun hmem => ?_, ih _⟩
        exact (mem_undefined_lasting.1 hmem).2 (.head _)

/-- How grave an event is and what it says. -/
def words (e : Event) : Severity × String := (e.diagnostic.severity, e.diagnostic.text)

/-- What is said of an undefined symbol. -/
def undefinedWords (symbols : Symbols) (name : String) : Severity × String :=
  (.error, (AssembleFault.unresolvedSymbol name (symbols.firstUse? name)).message)

/-- All reports of an undefined symbol say the same. -/
theorem words_of_undefined (h : Ordinary symbols events) {e : Event} (he : e ∈ events)
    (hname : e.undefined? = some name) : e.words = undefinedWords symbols name := by
  cases e with
  | note severity position text => simp [undefined?] at hname
  | fault position f =>
    cases f with
    | unresolvedSymbol other firstUse =>
      obtain rfl := Option.some.inj hname
      have hfirst : firstUse = symbols.firstUse? other := h position _ he
      rw [hfirst]
      rfl
    | _ => simp [undefined?] at hname

/-- What is said of undefined symbols, in terms of their names. -/
theorem map_words_filter (h : Ordinary symbols events) :
    (events.filter fun e => !e.undefined?.isNone).map words =
      (events.filterMap undefined?).map (undefinedWords symbols) := by
  induction events with
  | nil => rfl
  | cons e events ih =>
    have htail : Ordinary symbols events := fun position f hf =>
      h position f (.tail _ hf)
    cases hname : e.undefined? with
    | none => simpa [hname] using ih htail
    | some name =>
      simpa [hname, words_of_undefined h (.head _) hname] using ih htail

/-- The diagnostics of events do not depend on the order of the events, but for the places at which
    undefined symbols are reported. -/
theorem lasting_perm {others : List Event} (h : events.Perm others)
    (hordinary : Ordinary symbols events) :
    ((lasting [] events).map words).Perm ((lasting [] others).map words) := by
  -- A list of events in two parts: the ones about undefined symbols are told by the names of these.
  have hsplit : ∀ l : List Event, Ordinary symbols l → ((lasting [] l).map words).Perm
      ((l.filter (·.undefined?.isNone)).map words ++
        ((lasting [] l).filterMap undefined?).map (undefinedWords symbols)) := by
    intro l hl
    have hlasting : Ordinary symbols (lasting [] l) := fun position f hf =>
      hl position f ((lasting_sublist [] l).subset hf)
    rw [← filter_lasting [] l, ← map_words_filter hlasting, ← List.map_append]
    exact ((List.filter_append_perm _ _).symm).map _
  have hothers : Ordinary symbols others := fun position f hf =>
    hordinary position f (h.mem_iff.2 hf)
  -- The same symbols are undefined, and each of them is reported once.
  have hnames : ((lasting [] events).filterMap undefined?).Perm
      ((lasting [] others).filterMap undefined?) := by
    rw [List.perm_ext_iff_of_nodup (nodup_undefined_lasting [] events)
      (nodup_undefined_lasting [] others)]
    intro name
    rw [mem_undefined_lasting, mem_undefined_lasting, (h.filterMap _).mem_iff]
  refine (hsplit events hordinary).trans (.trans ?_ (hsplit others hothers).symm)
  exact ((h.filter _).map _).append (hnames.map _)

end Event

/-! ## Both engines -/

namespace Engine

open Assembly

/-- What an engine reports: the events that leave a diagnostic. -/
def reported (engine : Engine) (program : Program) (context : Assembly.Context) (image : Image) :
    List Event :=
  Event.lasting [] (engine.events program context image)

/-- An engine adds the diagnostics of what it reports to the log. -/
theorem entries_assemble (engine : Engine) (program : Program) (context : Assembly.Context)
    (image : Image) (log : Log) :
    (engine.assemble program context image log).2.entries =
      log.entries ++ (engine.reported program context image).map Event.diagnostic := by
  rw [assemble_eq_conclude]
  exact Report.entries_recordAll { log } _

theorem events_perm {program : Program} {context : Assembly.Context} (image : Image)
    (hr : context.registry.WellFormed) (hs : ∀ st ∈ program, st.value.Sound context.registry) :
    (twoPass.events program context image).Perm (onePass.events program context image) := by
  rw [events, events, course_eq image hr hs onePass]
  exact (Course.sound_along _ image hr hs).events_perm image.size

/-- Both engines leave the same diagnostics: the words of all of them are the same, and those that are
    not about undefined symbols stand at the same places, too. -/
theorem assemble_same_diagnostics {registry : Registry} (hr : registry.Loaded) {program : Program}
    (hp : program.Parsed registry) (context : Assembly.Context) (hc : context.registry = registry)
    (image : Image) (log : Log) :
    let reported (engine : Engine) := engine.reported program context image
    let added (engine : Engine) :=
      (engine.assemble program context image log).2.entries.drop log.entries.length
    (∀ engine, (engine.assemble program context image log).2.entries = log.entries ++ added engine ∧
        added engine = (reported engine).map Event.diagnostic) ∧
      ((added twoPass).map fun d => (d.severity, d.text)).Perm
        ((added onePass).map fun d => (d.severity, d.text)) ∧
      (((reported twoPass).filter (·.undefined?.isNone)).map Event.diagnostic).Perm
        (((reported onePass).filter (·.undefined?.isNone)).map Event.diagnostic) := by
  intro reported added
  subst hc
  have hsound := hp.sound hr.wellFormed
  have hperm := events_perm image hr.wellFormed hsound
  have hadded : ∀ engine, added engine = (reported engine).map Event.diagnostic := by
    intro engine
    simp only [added, entries_assemble, List.drop_left, reported]
  refine ⟨fun engine => ⟨?_, hadded engine⟩, ?_, ?_⟩
  · rw [hadded, entries_assemble]
  · rw [hadded, hadded, List.map_map, List.map_map]
    exact Event.lasting_perm hperm (ordinary_events image hr.wellFormed hsound twoPass)
  · simp only [reported, Engine.reported, Event.filter_lasting]
    exact (hperm.filter _).map _

end Engine

namespace Sample

/-- A condition, a number and an address with a name that is never defined. -/
def muddle : Program :=
  [⟨⟨"muddle", 1, 1⟩, .assertion ⟨[.label "lost"]⟩⟩,
    ⟨⟨"muddle", 2, 1⟩, .data 1 [⟨[.label "lost"]⟩, ⟨[.number 300]⟩]⟩,
    ⟨⟨"muddle", 3, 1⟩, .code 0 [.expr ⟨[.label "lost"]⟩]⟩,
    ⟨⟨"muddle", 4, 1⟩, .report .warning "done"⟩]

theorem muddle_parsed : muddle.Parsed registry := by
  have h : (Script.parse
      ⟨"muddle", Utf8.encode "ASSERT lost\nBYTE lost, 300\nTALK(lost)\nWARNING \"done\"\n", none⟩
      { registry } []).outcome = .ok muddle := by
    decide +kernel
  exact ⟨_, _, _, rfl, h⟩

end Sample

namespace Engine

open Assembly

/-- The engines report the undefined symbol of a program at different places, with the same words. -/
theorem assemble_same_diagnostics_muddle :
    Sample.registry.Loaded ∧ Sample.muddle.Parsed Sample.registry ∧
      let context : Assembly.Context := { registry := Sample.registry, origin := 0x10 }
      let image : Image := Array.replicate 64 0xFF
      let reported (engine : Engine) := engine.reported Sample.muddle context image
      let added (engine : Engine) := (engine.assemble Sample.muddle context image {}).2.entries.drop 0
      (∀ engine, (engine.assemble Sample.muddle context image {}).2.entries = [] ++ added engine ∧
          added engine = (reported engine).map Event.diagnostic) ∧
        ((added twoPass).map fun d => (d.severity, d.text)).Perm
          ((added onePass).map fun d => (d.severity, d.text)) ∧
        (((reported twoPass).filter (·.undefined?.isNone)).map Event.diagnostic).Perm
          (((reported onePass).filter (·.undefined?.isNone)).map Event.diagnostic) :=
  ⟨Sample.loaded, Sample.muddle_parsed,
    assemble_same_diagnostics Sample.loaded Sample.muddle_parsed
      { registry := Sample.registry, origin := 0x10 } rfl (Array.replicate 64 0xFF) {}⟩

end Engine

end CartScript
