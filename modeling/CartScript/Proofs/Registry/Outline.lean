import CartScript.Proofs.Text.Digits
import CartScript.Registry.Load

/-!
# What a definition file says

Line by line, a definition file amounts to a list of items: codes, each with its parameters, and
files to be included, up to the first line that is wrong.  A code comes into the list before an include
that follows it.  The name of the file comes in only as the origin of the codes, and in messages.
-/

namespace CartScript

/-- The code as it is declared in a line of a file. -/
def Code.declaredIn (c : Code) (file : String) (line : Nat) : Code :=
  { c with origin := s!"{file}:{line}" }

/-- The code as it is declared in a file. -/
def Pending.declaredIn (p : Pending) (file : String) : Pending :=
  { p with code := p.code.declaredIn file p.line }

/-! ## Names of files in records -/

namespace Record

/-- Flags say nothing about the origin. -/
theorem codeFlag_origin (code : Code) (origin : String) (flag : Flag) :
    codeFlag { code with origin } flag = (codeFlag code flag).map ({ · with origin }) := by
  simp only [codeFlag]
  split
  · cases number "priority" flag.value with
    | error fault => rfl
    | ok n =>
      simp only [bind, Except.bind]
      split <;> rfl
  · split <;> rfl
  · split <;> rfl
  · rfl
  · rfl
  · cases size "id length" flag.value with
    | error fault | ok n => rfl
  · cases size "alignment" flag.value with
    | error fault => rfl
    | ok n =>
      simp only [bind, Except.bind]
      split <;> rfl
  · rfl

theorem foldlM_codeFlag_origin (flags : List Flag) (code : Code) (origin : String) :
    flags.foldlM codeFlag { code with origin } =
      (flags.foldlM codeFlag code).map ({ · with origin }) := by
  induction flags generalizing code with
  | nil => rfl
  | cons flag flags ih =>
    rw [List.foldlM_cons, List.foldlM_cons, codeFlag_origin]
    cases codeFlag code flag with
    | error fault => rfl
    | ok next => exact ih next

theorem codeOf_declaredIn (file : String) (line : Nat) (flags : List (List Char))
    (name idText : List Char) (lengthText? : Option (List Char)) :
    codeOf file line flags name idText lengthText? =
      (codeOf "" line flags name idText lengthText?).map (·.declaredIn file) := by
  simp only [codeOf]
  split
  · rfl
  · cases number "id" idText with
    | error fault => rfl
    | ok id =>
      simp only [bind, Except.bind]
      split
      · rfl
      · cases lengthText?.mapM (size "length") with
        | error fault => rfl
        | ok length? =>
          simp only [foldlM_codeFlag_origin]
          cases (flags.map Flag.ofText).foldlM codeFlag
              (Code.make (String.ofList name) (UInt32.ofNat id.toInt.toNat) 0) with
          | error fault | ok code => rfl

/-- The name of the file is the origin of a code and nothing else. -/
theorem code_declaredIn (file : String) (line : Nat) (text : List Char) :
    Record.code file line text = (Record.code "" line text).map (·.declaredIn file) := by
  simp only [Record.code]
  split
  · exact codeOf_declaredIn ..
  · exact codeOf_declaredIn ..
  · rfl

end Record

namespace Pending

theorem checkParams_declaredIn (code : Code) (file : String) (line : Nat) (earlier later : List Param) :
    checkParams (code.declaredIn file line) earlier later = checkParams code earlier later := by
  induction later generalizing earlier with
  | nil => rfl
  | cons p later ih =>
    rw [checkParams, checkParams, ih]
    rfl

/-- The code with the length that its parameters give it, if it has no other one. -/
def sized (p : Pending) : Code := { p.code with length := p.length?.getD p.measuredLength }

theorem finish_eq (p : Pending) : p.finish =
    if p.sized.length = 0 then .error .noLength
    else if p.sized.length < p.sized.idLength then .error .idTooLong
    else if !idFits p.sized then .error .idTooLarge
    else (checkParams p.sized [] p.sized.params).map fun _ => p.sized := by
  rw [finish, ← sized]
  cases checkParams p.sized [] p.sized.params <;> rfl

/-- What a finished code was checked for. -/
theorem finish_eq_ok {p : Pending} {c : Code} (h : p.finish = .ok c) :
    c.length ≠ 0 ∧ ¬ c.length < c.idLength ∧ idFits c = true ∧ checkParams c [] c.params = .ok () ∧
      p.sized = c := by
  rw [finish_eq] at h
  obtain ⟨hlength, h⟩ := Except.ite_error_eq_ok_iff.1 h
  obtain ⟨hid, h⟩ := Except.ite_error_eq_ok_iff.1 h
  obtain ⟨hfits, h⟩ := Except.ite_error_eq_ok_iff.1 h
  obtain ⟨_, hparams, rfl⟩ := Except.map_eq_ok_iff.1 h
  exact ⟨hlength, hid, by simpa using hfits, hparams, rfl⟩

/-- The checks of a code look at everything but its origin. -/
theorem finish_declaredIn (p : Pending) (file : String) :
    (p.declaredIn file).finish = p.finish.map (·.declaredIn file p.line) := by
  have hsized : (p.declaredIn file).sized = p.sized.declaredIn file p.line := rfl
  have hfits : idFits (p.sized.declaredIn file p.line) = idFits p.sized := rfl
  rw [finish_eq, finish_eq, hsized, hfits, checkParams_declaredIn]
  show (if p.sized.length = 0 then _ else if p.sized.length < p.sized.idLength then _ else _) = _
  split
  · rfl
  · split
    · rfl
    · split
      · rfl
      · show (checkParams p.sized [] p.sized.params).map _ = _
        cases checkParams p.sized [] p.sized.params <;> rfl

end Pending

namespace Loader

/-! ## Items -/

/-- What a definition file says, piece by piece. -/
inductive Item where
  /-- A code, whose record stands in the given line. -/
  | code (line : Nat) (code : Code)
  | includes (path : Path)
  /-- The given line is wrong; what follows does not count. -/
  | wrong (line : Nat) (fault : RecordFault)
  deriving Repr, DecidableEq

/-- What a code amounts to when its last parameter was read. -/
def closing : Option Pending → List Item
  | none => []
  | some p =>
    match p.finish with
    | .ok code => [.code p.line code]
    | .error fault => [.wrong p.line fault]

/-- The items of lines, the first of which has the given number, after a code whose parameters may
    follow and the documentation for the next one. -/
def outlineFrom (base : Path) :
    (number : Nat) → List (List Char) → Option Pending → (doc : Option String) → List Item
  | _, [], pending, _ => closing pending
  | number, raw :: lines, pending, doc =>
    match Line.classify raw with
    | .skip => outlineFrom base (number + 1) lines pending doc
    | .doc text => outlineFrom base (number + 1) lines pending (some (addDoc doc text))
    | .includes rest =>
      closing pending ++
        match quoted? rest with
        | none => [.wrong number .expectedFile]
        | some name =>
          .includes (Path.join base (String.ofList name)) ::
            outlineFrom base (number + 1) lines none doc
    | .param text =>
      match pending with
      | none => [.wrong number .paramOutsideCode]
      | some p =>
        match Record.param text with
        | .error fault => [.wrong number fault]
        | .ok param =>
          let code := { p.code with params := p.code.params ++ [param] }
          outlineFrom base (number + 1) lines (some { p with code }) doc
    | .code text =>
      closing pending ++
        match Record.code "" number text with
        | .error fault => [.wrong number fault]
        | .ok next =>
          outlineFrom base (number + 1) lines (some { next with code := { next.code with doc } }) none

/-- The items of a text whose includes are looked up from the directory `base`. -/
def outline (base : Path) (text : String) : List Item :=
  outlineFrom base 1 (Text.lines text.toList) none none

/-- Follows items in order: puts codes into the registry, and reads files that are included. -/
def follow (read : ReadFile) (file : String) : List Item → Loader → Except LoadFault Loader
  | [], loader => .ok loader
  | .code line code :: items, loader =>
    match loader.registry.insert (code.declaredIn file line) with
    | (.error earlier, _) => .error (.duplicate file line code.name earlier)
    | (.ok (), registry) => follow read file items { loader with registry }
  | .includes path :: items, loader =>
    match read loader path with
    | .error fault => .error fault
    | .ok next => follow read file items next
  | .wrong line fault :: _, _ => .error (.malformed file line fault)

variable (read : ReadFile) (file : String)

theorem follow_append (items items' : List Item) (loader : Loader) :
    follow read file (items ++ items') loader =
      (follow read file items loader).bind (follow read file items') := by
  induction items generalizing loader with
  | nil => rfl
  | cons item items ih =>
    cases item with
    | code line code =>
      simp only [List.cons_append, follow]
      rcases loader.registry.insert (code.declaredIn file line) with ⟨_ | _, registry⟩
      · rfl
      · exact ih _
    | includes path =>
      simp only [List.cons_append, follow]
      cases read loader path with
      | error fault => rfl
      | ok next => exact ih next
    | wrong line fault => rfl

/-! ## Reading a text is following its items -/

theorem finish_eq (loader : Loader) (pending : Option Pending) :
    loader.finish file (pending.map (·.declaredIn file)) = follow read file (closing pending) loader := by
  cases pending with
  | none => rfl
  | some p =>
    simp only [Option.map_some, Loader.finish, Pending.finish_declaredIn, closing]
    cases p.finish with
    | error fault => rfl
    | ok code =>
      simp only [Except.map, follow]
      rcases loader.registry.insert (code.declaredIn file p.line) with ⟨_ | _, registry⟩ <;> rfl

theorem readLines_eq (base : Path) (number : Nat) (lines : List (List Char)) (loader : Loader)
    (pending : Option Pending) (doc : Option String) :
    (readLines read file base number lines ⟨loader, pending.map (·.declaredIn file), doc⟩).bind
        (fun state => state.loader.finish file state.pending) =
      follow read file (outlineFrom base number lines pending doc) loader := by
  induction lines generalizing number loader pending doc with
  | nil => exact finish_eq read file loader pending
  | cons raw lines ih =>
    simp only [readLines, readLine, outlineFrom]
    cases Line.classify raw with
    | skip | doc text => exact ih ..
    | includes rest =>
      simp only [bind, finish_eq read, follow_append]
      cases follow read file (closing pending) loader with
      | error fault => rfl
      | ok next =>
        simp only [Except.bind]
        cases quoted? rest with
        | none => rfl
        | some name =>
          simp only [follow]
          cases read next (Path.join base (String.ofList name)) with
          | error fault => rfl
          | ok after => exact ih (number + 1) after none doc
    | param text =>
      cases pending with
      | none => rfl
      | some p =>
        simp only [Option.map_some]
        cases Record.param text with
        | error fault => rfl
        | ok param =>
          exact ih (number + 1) loader
            (some { p with code := { p.code with params := p.code.params ++ [param] } }) doc
    | code text =>
      simp only [bind, finish_eq read, follow_append]
      cases follow read file (closing pending) loader with
      | error fault => rfl
      | ok next =>
        simp only [Except.bind, Record.code_declaredIn file]
        cases hcode : Record.code "" number text with
        | error fault => rfl
        | ok fresh =>
          exact ih (number + 1) next (some { fresh with code := { fresh.code with doc } }) none

/-- Reading a text is following its items. -/
theorem readText_eq (loader : Loader) (text : String) (base : Path) :
    readText read loader file text base = follow read file (outline base text) loader := by
  have hlines := readLines_eq read file base 1 (Text.lines text.toList) loader none none
  rw [Option.map_none] at hlines
  rw [outline, ← hlines, readText]
  cases readLines read file base 1 (Text.lines text.toList) { loader } <;> rfl

end Loader

/-! ## Codes and their records -/

/-- The records of a code and its parameters, with the line of the first. -/
structure Entry where
  line : Nat
  head : Record
  params : List Record

namespace Entry

open Record (ofLine)

/-- The records of lines, the first of which has the given number: parameters at the start, and the
    codes behind them. -/
def entriesFrom : (number : Nat) → List (List Char) → List Record × List Entry
  | _, [] => ([], [])
  | number, raw :: lines =>
    let (params, entries) := entriesFrom (number + 1) lines
    match Loader.Line.classify raw with
    | .param text => (ofLine text :: params, entries)
    | .code text => ([], ⟨number, ofLine text, params⟩ :: entries)
    | .includes _ => ([], entries)
    | _ => (params, entries)

/-- The codes of a text with their records. -/
def entries (text : String) : List Entry := (entriesFrom 1 (Text.lines text.toList)).2

/-- What records have been read as, the parameters one by one. -/
inductive Declares : Entry → Pending → Prop
  | code {line : Nat} {text : List Char} {p : Pending} {doc : Option String}
      (h : Record.code "" line text = .ok p) :
      Declares ⟨line, ofLine text, []⟩ { p with code := { p.code with doc } }
  | param {e : Entry} {p : Pending} {text : List Char} {param : Param} (h : e.Declares p)
      (hparam : Record.param text = .ok param) :
      Declares { e with params := e.params ++ [ofLine text] }
        { p with code := { p.code with params := p.code.params ++ [param] } }

/-- The code in a line is made of the records. -/
def Makes (e : Entry) (item : Nat × Code) : Prop :=
  ∃ p, e.Declares p ∧ p.line = item.1 ∧ p.finish = .ok item.2

end Entry

namespace Loader

open Entry (entriesFrom)

def Item.code? : Item → Option (Nat × Code)
  | .code line c => some (line, c)
  | _ => none

theorem mem_codes_iff {items : List Item} {line : Nat} {c : Code} :
    (line, c) ∈ items.filterMap Item.code? ↔ .code line c ∈ items := by
  refine List.mem_filterMap.trans ⟨?_, fun h => ⟨_, h, rfl⟩⟩
  rintro ⟨item, hitem, hcode⟩
  cases item with
  | code => cases hcode; exact hitem
  | includes | wrong => cases hcode

/-- A code that is finished without a fault is made of the records that were read. -/
theorem forall₂_makes_closing {opened : List Entry} {pending : Option Pending}
    (h : List.Forall₂ Entry.Declares opened pending.toList)
    (hfine : ∀ line fault, .wrong line fault ∉ closing pending) :
    List.Forall₂ Entry.Makes opened ((closing pending).filterMap Item.code?) := by
  cases pending with
  | none =>
    cases h
    exact .nil
  | some p =>
    obtain _ | ⟨he, ⟨⟩⟩ := h
    simp only [closing] at hfine ⊢
    split
    · rename_i c hc
      exact .cons ⟨p, he, rfl, hc⟩ .nil
    · rename_i fault hfault
      simp [hfault] at hfine

/-- Lines without a fault give a code for each of their entries, and no others. -/
theorem forall₂_makes_outlineFrom (base : Path) (number : Nat) (lines : List (List Char))
    {opened : List Entry} {pending : Option Pending} (doc : Option String)
    (h : List.Forall₂ Entry.Declares opened pending.toList)
    (hfine : ∀ line fault, .wrong line fault ∉ outlineFrom base number lines pending doc) :
    List.Forall₂ Entry.Makes
      (opened.map (fun e => { e with params := e.params ++ (entriesFrom number lines).1 }) ++
        (entriesFrom number lines).2)
      ((outlineFrom base number lines pending doc).filterMap Item.code?) := by
  induction lines generalizing number opened pending doc with
  | nil => simpa [entriesFrom, outlineFrom] using forall₂_makes_closing h hfine
  | cons raw lines ih =>
    rw [outlineFrom] at hfine ⊢
    rw [entriesFrom]
    cases hclass : Line.classify raw with
    | skip | doc text =>
      simp only [hclass] at hfine ⊢
      exact ih _ _ h hfine
    | includes rest =>
      simp only [hclass, List.mem_append, not_or, forall_and] at hfine ⊢
      rw [List.filterMap_append]
      refine List.rel_append (by simpa using forall₂_makes_closing h hfine.1) ?_
      cases hname : quoted? rest with
      | none => simp [hname] at hfine
      | some name =>
        simp only [hname] at hfine ⊢
        exact ih _ _ .nil fun line fault hwrong => hfine.2 line fault (.tail _ hwrong)
    | param text =>
      simp only [hclass] at hfine ⊢
      cases pending with
      | none => simp at hfine
      | some p =>
        obtain _ | ⟨he, ⟨⟩⟩ := h
        cases hparam : Record.param text with
        | error fault => simp [hparam] at hfine
        | ok param =>
          simp only [hparam] at hfine ⊢
          simpa using ih _ _ (.cons (he.param hparam) .nil) hfine
    | code text =>
      simp only [hclass, List.mem_append, not_or, forall_and] at hfine ⊢
      rw [List.filterMap_append]
      refine List.rel_append (by simpa using forall₂_makes_closing h hfine.1) ?_
      cases hcode : Record.code "" number text with
      | error fault => simp [hcode] at hfine
      | ok next =>
        simp only [hcode] at hfine ⊢
        exact ih _ _ (.cons (.code hcode) .nil) hfine.2

/-- The codes of a text without a fault and its entries. -/
theorem makes_outline {base : Path} {text : String}
    (hfine : ∀ line fault, .wrong line fault ∉ outline base text) :
    (∀ e ∈ Entry.entries text, ∃ line c, .code line c ∈ outline base text ∧ e.Makes (line, c)) ∧
      ∀ line c, .code line c ∈ outline base text → ∃ e : Entry, e.Makes (line, c) := by
  have hmade := forall₂_makes_outlineFrom base 1 (Text.lines text.toList) none .nil hfine
  refine ⟨fun e he => ?_, fun line c hc => ?_⟩
  · obtain ⟨⟨line, c⟩, hc, hmakes⟩ := hmade.exists_mem he
    exact ⟨line, c, mem_codes_iff.1 hc, hmakes⟩
  · obtain ⟨e, -, hmakes⟩ := hmade.flip.exists_mem (mem_codes_iff.2 hc)
    exact ⟨e, hmakes⟩

end Loader

end CartScript
