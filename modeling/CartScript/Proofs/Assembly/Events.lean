import CartScript.Assembly.Report

/-!
# What an assembly reports, as a list of events

A report is the replay of the events of an assembly.  A repeated undefined symbol is an event like any
other, although it leaves no trace in the log: the log fails because of the first one.  So whether an
assembly fails depends only on which events it has, not on their order.
-/

namespace CartScript

/-! ## Logs that grow -/

namespace Log

/-- A log to which diagnostics were added. -/
structure Extends (before after : Log) : Prop where
  view : after.warningsAreErrors = before.warningsAreErrors
  suffix : before.newest <:+ after.newest

/-- Whether a log that continues `before` holds a failing diagnostic that is not in `before`. -/
def FailsSince (before after : Log) : Prop :=
  ∃ d ∈ after.entries.drop before.entries.length, after.isFailure d.severity = true

instance (before after : Log) : Decidable (before.FailsSince after) :=
  inferInstanceAs (Decidable (∃ d ∈ _, _))

theorem Extends.refl (log : Log) : log.Extends log := ⟨rfl, List.suffix_rfl⟩

theorem Extends.trans {a b c : Log} (hab : a.Extends b) (hbc : b.Extends c) : a.Extends c :=
  ⟨hbc.view.trans hab.view, hab.suffix.trans hbc.suffix⟩

theorem Extends.push (log : Log) (severity : Severity) (location : Location) (text : String) :
    log.Extends (log.push severity location text) :=
  ⟨rfl, List.suffix_cons _ _⟩

theorem Extends.isFailure {before after : Log} (h : before.Extends after) (severity : Severity) :
    after.isFailure severity = before.isFailure severity := by
  cases severity with
  | warning => exact h.view
  | message | error => rfl

theorem errorCount_push (log : Log) (severity : Severity) (location : Location) (text : String) :
    (log.push severity location text).errorCount =
      log.errorCount + if log.isFailure severity then 1 else 0 := by
  simp only [errorCount, push, List.countP_cons]
  rfl

theorem Extends.errorCount_le {before after : Log} (h : before.Extends after) :
    before.errorCount ≤ after.errorCount := by
  simp only [errorCount, h.isFailure]
  exact h.suffix.sublist.countP_le

/-- A log that was added to fails anew if and only if it counts more failures. -/
theorem failsSince_iff {before after : Log} (h : before.Extends after) :
    before.FailsSince after ↔ before.errorCount < after.errorCount := by
  obtain ⟨new, hnew⟩ := h.suffix
  have hentries : after.entries.drop before.entries.length = new.reverse := by
    simp only [entries, ← hnew, List.reverse_append, List.drop_left]
  have hcount : after.errorCount =
      new.countP (fun d => after.isFailure d.severity) + before.errorCount := by
    simp only [errorCount, ← hnew, List.countP_append, h.isFailure]
  rw [FailsSince, hentries, hcount]
  simp only [List.mem_reverse]
  rw [← List.countP_pos_iff (p := fun d : Diagnostic => after.isFailure d.severity)]
  omega

end Log

/-! ## Events -/

/-- Something that an assembly has to say. -/
inductive Event where
  | fault (position : Position) (fault : AssembleFault)
  | note (severity : Severity) (position : Position) (text : String)
  deriving Repr, DecidableEq, Inhabited

namespace Event

def severity : Event → Severity
  | .fault _ _ => .error
  | .note severity _ _ => severity

/-- The fault of an outcome, if it is not a success. -/
def ofOutcome {α : Type} (position : Position) : Except AssembleFault α → List Event
  | .ok _ => []
  | .error f => [.fault position f]

@[simp]
theorem ofOutcome_ok {α : Type} (position : Position) (a : α) : ofOutcome position (.ok a) = [] := rfl

@[simp]
theorem ofOutcome_error {α : Type} (position : Position) (f : AssembleFault) :
    ofOutcome position (.error f : Except AssembleFault α) = [.fault position f] := rfl

@[simp]
theorem ofOutcome_map {α β : Type} (position : Position) (g : α → β) (x : Except AssembleFault α) :
    ofOutcome position (x.map g) = ofOutcome position x := by
  cases x <;> rfl

/-- Events none of which is an error. -/
def Faultless (events : List Event) : Prop := ∀ e ∈ events, e.severity ≠ .error

@[simp]
theorem faultless_append {xs ys : List Event} :
    Faultless (xs ++ ys) ↔ Faultless xs ∧ Faultless ys := List.forall_mem_append

@[simp]
theorem faultless_flatMap {α : Type} {l : List α} {f : α → List Event} :
    Faultless (l.flatMap f) ↔ ∀ a ∈ l, Faultless (f a) := List.forall_mem_flatMap

/-- An outcome without a fault is a success. -/
theorem exists_of_faultless {α : Type} {position : Position} {x : Except AssembleFault α}
    (h : Faultless (ofOutcome position x)) : ∃ a, x = .ok a := by
  cases x with
  | ok a => exact ⟨a, rfl⟩
  | error f => exact absurd rfl (h (.fault position f) (List.mem_singleton_self _))

end Event

namespace Report

/-- Reports one event. -/
def record (r : Report) : Event → Report
  | .fault position f => r.fault position f
  | .note severity position text => r.push severity position text

/-- Reports events one after the other. -/
def recordAll (r : Report) (events : List Event) : Report := events.foldl record r

@[simp]
theorem recordAll_nil (r : Report) : r.recordAll [] = r := rfl

@[simp]
theorem recordAll_cons (r : Report) (e : Event) (events : List Event) :
    r.recordAll (e :: events) = (r.record e).recordAll events := rfl

/-- `recordAll` takes events one after the other. -/
theorem recordAll_append (r : Report) (xs ys : List Event) :
    r.recordAll (xs ++ ys) = (r.recordAll xs).recordAll ys := List.foldl_append

theorem outcome_eq_recordAll {α : Type} (r : Report) (position : Position)
    (x : Except AssembleFault α) :
    r.outcome position x = r.recordAll (Event.ofOutcome position x) := by
  cases x <;> rfl

theorem faults_eq_recordAll (r : Report) (complaints : List (Located AssembleFault)) :
    r.faults complaints = r.recordAll (complaints.map fun c => .fault c.position c.value) := by
  rw [recordAll, List.foldl_map]
  rfl

/-! ## When a replay fails -/

/-- A report that goes on from a log: an undefined symbol was noted only with a failure. -/
structure Since (log : Log) (r : Report) : Prop where
  extend : log.Extends r.log
  undefined : r.undefined ≠ [] → log.errorCount < r.log.errorCount

theorem Since.start (log : Log) : Since log { log } :=
  ⟨Log.Extends.refl log, fun h => absurd rfl h⟩

/-- What one event does to the count of failures. -/
theorem Since.record {log : Log} {r : Report} (h : Since log r) (e : Event) :
    Since log (r.record e) ∧
      (log.errorCount < (r.record e).log.errorCount ↔
        log.errorCount < r.log.errorCount ∨ log.isFailure e.severity = true) := by
  have hpush (severity : Severity) (position : Position) (text : String) :
      Since log (r.push severity position text) ∧
        (log.errorCount < (r.push severity position text).log.errorCount ↔
          log.errorCount < r.log.errorCount ∨ log.isFailure severity = true) := by
    have hle := h.extend.errorCount_le
    have hcount := r.log.errorCount_push severity (.script position) text
    rw [h.extend.isFailure] at hcount
    refine ⟨⟨h.extend.trans (Log.Extends.push ..), fun hu => ?_⟩, ?_⟩
    · have hlt := h.undefined hu
      rw [push, hcount]
      omega
    · rw [push, hcount]
      split
      · rename_i hfailure
        simp only [hfailure, or_true, iff_true]
        omega
      · rename_i hfailure
        simp only [hfailure, or_false, Nat.add_zero, Bool.false_eq_true]
  cases e with
  | note severity position text => exact hpush severity position text
  | fault position f =>
    obtain ⟨hsince, hcount⟩ := hpush .error position f.message
    have hfails : log.errorCount < (r.push .error position f.message).log.errorCount :=
      hcount.2 (.inr rfl)
    simp only [Report.record, fault]
    split
    · split
      · -- A repeat is dropped, but the report failed before.
        rename_i name _ hrepeat
        have hlt := h.undefined (by rintro hnil; simp [hnil] at hrepeat)
        exact ⟨h, fun _ => .inr rfl, fun _ => hlt⟩
      · exact ⟨⟨hsince.extend, fun _ => hfails⟩, hcount⟩
    · exact ⟨⟨hsince.extend, fun _ => hfails⟩, hcount⟩

theorem Since.recordAll {log : Log} {r : Report} (h : Since log r) (events : List Event) :
    Since log (r.recordAll events) ∧
      (log.errorCount < (r.recordAll events).log.errorCount ↔
        log.errorCount < r.log.errorCount ∨ ∃ e ∈ events, log.isFailure e.severity = true) := by
  induction events generalizing r with
  | nil => simpa using h
  | cons e events ih =>
    obtain ⟨hnext, hcount⟩ := h.record e
    obtain ⟨hlast, hrest⟩ := ih hnext
    refine ⟨hlast, ?_⟩
    rw [recordAll_cons, hrest, hcount, or_assoc]
    simp

/-- A replay from a log extends it. -/
theorem extends_recordAll (log : Log) (events : List Event) :
    log.Extends (({ log } : Report).recordAll events).log :=
  ((Since.start log).recordAll events).1.extend

/-- A replay counts more failures than the log it goes on from if and only if an event fails. -/
theorem errorCount_lt_recordAll_iff (log : Log) (events : List Event) :
    log.errorCount < (({ log } : Report).recordAll events).log.errorCount ↔
      ∃ e ∈ events, log.isFailure e.severity = true := by
  rw [((Since.start log).recordAll events).2]
  simp

end Report

end CartScript
