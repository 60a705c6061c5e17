import CartScript.Job
import CartScript.Proofs.Assembly.Course

/-!
# Jobs succeed or change nothing

A job fails in many places: the game of the image is unknown, the script cannot be read or is wrong,
or something goes wrong while it is assembled.  Whatever it is, the log tells, and the image stays as
it was.
-/

namespace CartScript

namespace Log

theorem errorCount_eq_zero_iff (log : Log) :
    log.errorCount = 0 ↔ ∀ d ∈ log.entries, log.isFailure d.severity = false := by
  rw [errorCount, List.countP_eq_zero]
  simp [entries]

/-- A log is one of success if it holds no error, and no warning while warnings count as errors. -/
theorem succeeded_iff (log : Log) : log.succeeded = true ↔ ∀ d ∈ log.entries,
    d.severity ≠ .error ∧ (log.warningsAreErrors = true → d.severity ≠ .warning) := by
  have hfailure (severity : Severity) : log.isFailure severity = false ↔
      severity ≠ .error ∧ (log.warningsAreErrors = true → severity ≠ .warning) := by
    cases severity <;> simp [isFailure]
  simp only [succeeded, beq_iff_eq, errorCount_eq_zero_iff, hfailure]

/-- Failures that were added are there. -/
theorem not_succeeded_of_failsSince {before after : Log} (hext : before.Extends after)
    (h : before.FailsSince after) : after.succeeded = false := by
  have hlt := (failsSince_iff hext).1 h
  simp only [succeeded, beq_eq_false_iff_ne]
  omega

theorem Extends.extend (log : Log) (other : List Diagnostic) : log.Extends (log.extend other) :=
  ⟨rfl, List.suffix_append _ _⟩

end Log

namespace Assembly

theorem extends_conclude (image : Image) (log : Log) (written : Image) (events : List Event) :
    log.Extends (conclude image log written events).2 :=
  Report.extends_recordAll log events

variable {events : List Event} {image written : Image} {log : Log}

/-- A failing event keeps the image as it was, also one that leaves no trace in the log. -/
theorem conclude_of_failure (h : ∃ e ∈ events, log.isFailure e.severity = true) :
    (conclude image log written events).1 = image ∧
      (conclude image log written events).2.succeeded = false := by
  refine ⟨?_, Log.not_succeeded_of_failsSince (extends_conclude ..) (failsSince_conclude.2 h)⟩
  rw [← Report.errorCount_lt_recordAll_iff] at h
  simp only [conclude, Writing.finish, if_pos h]

/-- An assembly from a log without failures fails only by an event of its own. -/
theorem exists_failure_of_conclude (hlog : log.succeeded = true)
    (h : (conclude image log written events).2.succeeded = false) :
    ∃ e ∈ events, log.isFailure e.severity = true := by
  rw [← Report.errorCount_lt_recordAll_iff]
  simp only [Log.succeeded, beq_iff_eq, beq_eq_false_iff_ne] at hlog h
  rw [hlog]
  exact Nat.pos_of_ne_zero h

end Assembly

namespace Job

open Assembly

variable (c : Context) (options : Options) (game : Game) (script : Script) (image : Image)

/-- The log of a script that is assembled goes on from the one it had. -/
theorem extends_assembleScript (log : Log) :
    log.Extends (assembleScript c options game script image log).2 := by
  have hextend := Log.Extends.extend log (script.parse (c.environment options game)
    options.defines).diagnostics
  simp only [assembleScript]
  split
  · exact hextend
  · split
    · exact hextend
    · rw [Engine.assemble_eq_conclude]
      exact hextend.trans (extends_conclude ..)

/-- A script that fails leaves the image alone. -/
theorem assembleScript_of_failure (log : Log)
    (h : (assembleScript c options game script image log).2.succeeded = false) :
    (assembleScript c options game script image log).1 = image := by
  simp only [assembleScript] at h ⊢
  split at h
  · rfl
  · rename_i program hprogram
    split at h
    · rename_i hlog
      rw [if_pos hlog]
    · rename_i hlog
      rw [if_neg hlog]
      rw [Engine.assemble_eq_conclude] at h ⊢
      exact (conclude_of_failure (exists_failure_of_conclude (by simpa using hlog) h)).1

/-- A script whose assembly has a failing event fails. -/
theorem assembleScript_of_event (log : Log) {program : Program}
    (hprogram : (script.parse (c.environment options game) options.defines).outcome = .ok program)
    (h : ∃ e ∈ (c.engine options).events program (c.assembly options) image,
      log.isFailure e.severity = true) :
    (assembleScript c options game script image log).2.succeeded = false := by
  have hextend := Log.Extends.extend log (script.parse (c.environment options game)
    options.defines).diagnostics
  simp only [assembleScript, hprogram]
  split
  · rename_i hlog
    simpa using hlog
  · rw [Engine.assemble_eq_conclude]
    refine (conclude_of_failure ?_).2
    simpa only [hextend.isFailure] using h

/-- A job either fails and leaves the image as it was, or its log holds no failure.  In particular
    each event of the assembly that fails keeps the image as it was, also the report of an undefined
    symbol that is dropped because the symbol was reported before. -/
theorem assemble_all_or_nothing (c : Context) (options : Options) (source : Source) (image : Image) :
    ((assemble c options source image).2.succeeded = false ∧
          (assemble c options source image).1 = image ∨
        (assemble c options source image).2.succeeded = true ∧
          ∀ d ∈ (assemble c options source image).2.entries, d.severity ≠ .error ∧
            (c.settings.warningsAreErrors = true → d.severity ≠ .warning)) ∧
      ∀ game script program, Game.identify image c.settings.gameTable = .ok game →
        source.load c.tree = .ok script →
        (script.parse (c.environment options game) options.defines).outcome = .ok program →
        (∃ e ∈ (c.engine options).events program (c.assembly options) image,
          c.log.isFailure e.severity = true) →
        (assemble c options source image).2.succeeded = false ∧
          (assemble c options source image).1 = image := by
  have hextends : c.log.Extends (assemble c options source image).2 := by
    unfold assemble
    split
    · exact Log.Extends.push ..
    · split
      · exact Log.Extends.push ..
      · exact extends_assembleScript ..
  have hfailure : (assemble c options source image).2.succeeded = false →
      (assemble c options source image).1 = image := by
    unfold assemble
    intro h
    split at h
    · rfl
    · split at h
      · rfl
      · exact assembleScript_of_failure _ _ _ _ _ _ h
  refine ⟨?_, fun game script program hgame hscript hprogram hevent => ?_⟩
  · cases hsucceeded : (assemble c options source image).2.succeeded with
    | false => exact .inl ⟨rfl, hfailure hsucceeded⟩
    | true =>
      refine .inr ⟨rfl, fun d hd => ?_⟩
      have hd := (Log.succeeded_iff _).1 hsucceeded d hd
      rwa [hextends.view] at hd
  · have hfails : (assemble c options source image).2.succeeded = false := by
      simp only [assemble, hgame, hscript]
      exact assembleScript_of_event _ _ _ _ _ _ hprogram hevent
    exact ⟨hfails, hfailure hfails⟩

/-- An undefined symbol that is used twice: two events, of which the log shows one, and an image that
    stays as it was. -/
theorem assemble_all_or_nothing_repeat :
    let image : Image := Array.replicate 0xAC 0 ++ #[0x42, 0x45, 0x38, 0x45]
    let source : Source := .text "uses" (Utf8.encode "ORG 4\nBYTE x\nBYTE x\n")
    let use (line : Nat) : Located Statement :=
      ⟨⟨"uses", line, 1⟩, .data 1 [⟨[.label "x"]⟩]⟩
    let fault (line : Nat) : Event :=
      .fault ⟨"uses", line, 1⟩ (.unresolvedSymbol "x" (some ⟨"uses", 2, 1⟩))
    Engine.twoPass.events [⟨⟨"uses", 1, 1⟩, .org ⟨[.number 4]⟩⟩, use 2, use 3]
        (Context.assembly {} {}) image = [fault 2, fault 3] ∧
      (assemble {} {} source image).2.entries.length = 1 ∧
      (assemble {} {} source image).2.succeeded = false ∧
      (assemble {} {} source image).1 = image := by
  intro image source use fault
  have hevents : Engine.twoPass.events [⟨⟨"uses", 1, 1⟩, .org ⟨[.number 4]⟩⟩, use 2, use 3]
      (Context.assembly {} {}) image = [fault 2, fault 3] := by
    decide +kernel
  refine ⟨hevents, by decide +kernel, ?_⟩
  refine (assemble_all_or_nothing {} {} source image).2 ⟨"BE8E", "FE8"⟩
    ⟨"uses", Utf8.encode "ORG 4\nBYTE x\nBYTE x\n", none⟩
    [⟨⟨"uses", 1, 1⟩, .org ⟨[.number 4]⟩⟩, use 2, use 3] (by decide +kernel) rfl (by decide +kernel) ?_
  exact ⟨fault 2, hevents ▸ .head _, rfl⟩

end Job

end CartScript
