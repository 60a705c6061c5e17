import CartScript.Proofs.Script.Kept
import CartScript.Proofs.Script.Lockstep
import CartScript.Proofs.Script.Reading

/-!
# Files that include each other

A file that is being read is not opened again.  Whether a file is being read is decided after the line
of the `#include`, and looking for the end of that line takes off an included file that has none.  So
the directive sees all files that led to it where its file has the end of a line ahead, and in the
script itself.
-/

namespace CartScript

open TextStream (Round)

namespace Supply

/-! ## Reading keeps the files apart -/

variable {s : Supply}

/-- The sources are files and uses of macros, and no file is open twice. -/
structure Tidy (s : Supply) : Prop where
  root : s.root.isFile = true
  stack : ∀ f ∈ s.stack, f.isFile = true ∨ UseNear Eq f f
  once : s.openFiles.Nodup

variable {f root : Frame} {stack : List Frame} {lineEnded : Bool}

/-- The sources below the topmost one. -/
theorem Tidy.below {lineEnded' : Bool} (h : (⟨root, f :: stack, lineEnded⟩ : Supply).Tidy) :
    (⟨root, stack, lineEnded'⟩ : Supply).Tidy := by
  refine ⟨h.root, (List.forall_mem_cons.1 h.stack).2, ?_⟩
  have honce := h.once
  rw [openFiles_mk, List.filterMap_cons] at honce
  rw [openFiles_mk]
  split at honce
  · exact honce
  · exact (List.nodup_cons.1 honce).2

/-- The topmost source may be replaced by one of its kind. -/
theorem Tidy.replace {g : Frame} (h : (⟨root, f :: stack, lineEnded⟩ : Supply).Tidy)
    (hroute : g.route? = f.route?) (hg : g.isFile = true ∨ UseNear Eq g g) :
    (⟨root, g :: stack, lineEnded⟩ : Supply).Tidy := by
  refine ⟨h.root, List.forall_mem_cons.2 ⟨hg, (List.forall_mem_cons.1 h.stack).2⟩, ?_⟩
  have honce := h.once
  rw [openFiles_mk, List.filterMap_cons] at honce
  rwa [openFiles_mk, List.filterMap_cons, hroute]

theorem Tidy.replaceRoot {root' : Frame} (h : (⟨root, [], lineEnded⟩ : Supply).Tidy)
    (hroute : root'.route? = root.route?) (hroot : root'.isFile = true) :
    (⟨root', [], lineEnded⟩ : Supply).Tidy := by
  refine ⟨hroot, by simp, ?_⟩
  have honce := h.once
  rw [openFiles_mk, List.filterMap_cons] at honce
  rwa [openFiles_mk, List.filterMap_cons, hroute]

theorem Tidy.peekStack (h : (⟨root, stack, false⟩ : Supply).Tidy) :
    (peekStack root stack).2.Tidy ∧
      ((Supply.peekStack root stack).1 ≠ .ok .fileEnd → (Supply.peekStack root stack).2.eat.Tidy) := by
  induction stack with
  | nil =>
    refine ⟨h.replaceRoot (by simp) (by simpa using h.root), fun _ => ?_⟩
    show (⟨root.peek.2.eat, [], false⟩ : Supply).Tidy
    exact h.replaceRoot (by simp) (by simpa using h.root)
  | cons f stack ih =>
    have hf := (List.forall_mem_cons.1 h.stack).1
    by_cases hend : Reading.isToken .fileEnd f.peek.1 = true
    · cases hfile : f.isFile with
      | true =>
        simp only [Supply.peekStack, if_pos hend, hfile, if_true]
        exact ⟨h.below, fun _ => h.below⟩
      | false =>
        simp only [Supply.peekStack, if_pos hend, hfile, Bool.false_eq_true, if_false]
        exact ih h.below
    · simp only [Supply.peekStack, if_neg hend]
      refine ⟨h.replace (by simp) (hf.imp (by simp) UseNear.peek), fun _ => ?_⟩
      refine h.replace (g := f.peek.2.eat) (by simp) (hf.imp (by simp) fun huse => ?_)
      rcases huse.cases with ⟨hend', _⟩ | ⟨_, _, _, heat⟩
      · exact absurd ((Reading.isToken_iff _ _).2 hend') hend
      · exact heat

/-- Reading keeps the sources tidy. -/
theorem kept_tidy : Supply.Kept Supply.Tidy where
  peek := by
    intro s h
    cases hline : s.lineEnded with
    | true =>
      rw [peek_of_lineEnded hline]
      exact h
    | false =>
      rw [peek_of_not hline]
      exact (Tidy.peekStack ⟨h.root, h.stack, h.once⟩).1
  eat := by
    intro s h hne
    cases hline : s.lineEnded with
    | true =>
      rw [peek_of_lineEnded hline]
      simp only [Supply.eat, hline, if_true]
      exact ⟨h.root, h.stack, h.once⟩
    | false =>
      rw [peek_of_not hline] at hne ⊢
      exact (Tidy.peekStack ⟨h.root, h.stack, h.once⟩).2 hne
  push := by
    intro s u h huse
    refine ⟨h.root, List.forall_mem_cons.2 ⟨.inr huse, h.stack⟩, ?_⟩
    have hsame : (s.put [u]).openFiles = s.openFiles := openFiles_put (by simpa using huse.isFile)
    exact hsame.symm ▸ h.once
  skip := by
    intro s h stopAtElse
    obtain ⟨root, stack, lineEnded⟩ := s
    cases stack with
    | nil =>
      have hakin := (Frame.skipBlock_ahead stopAtElse 0 root).2.2
      exact h.replaceRoot hakin.route? (hakin.isFile.trans h.root)
    | cons f stack =>
      have hakin := (Frame.skipBlock_ahead stopAtElse 0 f).2.2
      refine h.replace hakin.route? ((List.forall_mem_cons.1 h.stack).1.imp hakin.isFile.trans ?_)
      exact fun huse => ((Uses.any Eq).skipBlock huse stopAtElse 0).2

/-- The innermost file has the end of a line ahead, unless that is the script itself. -/
def endsLine (s : Supply) : Bool :=
  match s.stack.find? Frame.isFile with
  | none => true
  | some f => f.ahead.any fun r => Reading.isToken .lineEnd r.outcome

/-- Uses of macros on top of a file. -/
theorem Tidy.split (h : s.Tidy) :
    ∃ (us : List Frame) (s₀ : Supply), s = s₀.put us ∧ List.Forall₂ (UseNear Eq) us us ∧
      s₀.top.isFile = true ∧
      s₀.lineEnded = s.lineEnded ∧ s₀.stack.head? = s.stack.find? Frame.isFile := by
  obtain ⟨root, stack, lineEnded⟩ := s
  induction stack with
  | nil => exact ⟨[], ⟨root, [], lineEnded⟩, rfl, .nil, h.root, rfl, rfl⟩
  | cons f stack ih =>
    cases hfile : f.isFile with
    | true =>
      exact ⟨[], ⟨root, f :: stack, lineEnded⟩, rfl, .nil, hfile, rfl, by simp [hfile]⟩
    | false =>
      obtain ⟨us, s₀, hput, huses, htop, hline, hhead⟩ := ih h.below
      have huse : UseNear Eq f f :=
        (List.forall_mem_cons.1 h.stack).1.resolve_left (by simp [hfile])
      refine ⟨f :: us, s₀, congrArg (Supply.push · f) hput, .cons huse huses, htop, hline, ?_⟩
      rw [hhead, List.find?_cons_of_neg (by simp [hfile])]

end Supply

namespace Parsing

/-- A file is opened on top of others. -/
theorem includes_tidy (env : Environment) : Includes Supply.Tidy env := by
  intro s path route content h _ hclosed _
  refine ⟨h.root, List.forall_mem_cons.2 ⟨.inl rfl, h.stack⟩, ?_⟩
  rw [Supply.openFiles_push_file, List.nodup_cons, ← Supply.any_route?_iff, hclosed]
  exact ⟨by simp, h.once⟩

/-! ## The line of an `#include` -/

/-- Within a line that ends before the innermost file does, that file stays on top. -/
def staying (c : Supply) (hline : c.lineEnded = false) : Firm where
  near := Eq
  same := Eq
  T as bs := as = bs ∧ (c.stack = [] ∨ ∃ r ∈ as, r.outcome = .ok .lineEnd)
  D := Eq
  E := Eq
  Apt _ _ := True
  left := c
  right := c
  reading := ⟨hline, hline⟩
  lockstep :=
    { nil := fun h => by rw [h.1]
      first := fun h => by
        obtain ⟨rfl, rfl⟩ := List.cons.inj h.1
        exact ⟨rfl, rfl⟩
      inline := fun h hinline => by
        obtain ⟨rfl, rfl⟩ := List.cons.inj h.1
        refine ⟨rfl, h.2.imp_right fun hmore => ?_⟩
        obtain ⟨r, hr, hend⟩ := hmore
        rcases List.mem_cons.1 hr with rfl | hr
        · exact absurd hend hinline.1
        · exact ⟨r, hr, hend⟩
      line := fun h _ => (List.cons.inj h.1).2
      rest := fun h => h.1 }
  settled h := h
  bottom := by
    by_cases hstack : c.stack = []
    · exact .inr ⟨hstack, hstack⟩
    · refine .inl fun as bs h hnil => ?_
      obtain ⟨r, hr, _⟩ := h.2.resolve_left hstack
      rw [hnil] at hr
      cases hr
  isUsing _ := rfl
  follows := .inl fun _ _ h => h

variable {next s : ParseState} {env : Environment} {name : String} {path : Path}

/-- After the line of an `#include` the files are open that led to it. -/
theorem openFiles_of_fileName {d : Directive} {limit : Nat} (htidy : s.supply.Tidy)
    (hmacros : s.macros.Near (Macro.Near Eq) s.macros)
    (hpeek : s.supply.peek = (.ok (.directive d), s.supply)) (hends : s.supply.endsLine = true)
    (h : fileName limit s = .ok name next) : next.supply.openFiles = s.supply.openFiles := by
  have hline := Supply.lineEnded_of_peek (s := s.supply) (by rw [hpeek]) (by simp)
  obtain ⟨us, c, hput, huses, htop, hended, hhead⟩ := htidy.split
  have hc : c.lineEnded = false := hended.trans hline
  have hready : (staying c hc).pairing.Ready c c := by
    refine ⟨c.top, c.top, (c.withTop_top).symm, (c.withTop_top).symm, ⟨htop, htop, rfl, ?_⟩, rfl, rfl⟩
    by_cases hstack : c.stack = []
    · exact .inl hstack
    · obtain ⟨f, fs, hf⟩ := List.exists_cons_of_ne_nil hstack
      rw [hf] at hhead
      rw [Supply.endsLine, ← hhead] at hends
      obtain ⟨r, hr, hlast⟩ := List.any_eq_true.1 hends
      refine .inr ⟨r, ?_, (Reading.isToken_iff _ _).1 hlast⟩
      rw [Supply.top, hf]
      exact hr
  have hfacing : (staying c hc).pairing.beside.Facing (.directive d) s s := by
    refine ⟨⟨⟨?_, hmacros, rfl, ?_, ?_⟩, fun _ _ _ => trivial⟩, hpeek, hpeek⟩
    · exact ⟨us, us, c, c, .inr rfl, hput, hput, huses, hready⟩
    · exact List.forall₂_same.2 fun _ _ => rfl
    · exact List.forall₂_same.2 fun _ _ => rfl
  have halike := agree_fileName limit s s hfacing
  rw [h] at halike
  have hopen : s.supply.openFiles = c.openFiles := by
    rw [hput]
    refine Supply.openFiles_put fun u hu => ?_
    exact ((List.forall₂_same.1 huses) u hu).isFile
  obtain ⟨f, _, hf, _, _, hroute, _⟩ := Firm.on_of_after halike.get.supply
  rw [hopen, hf]
  exact Supply.openFiles_withTop hroute

theorem fileName_of_namedFile (h : namedFile env s = .ok (name, path) next) :
    fileName env.limit s = .ok name next := by
  rw [namedFile_eq] at h
  cases hs : fileName env.limit s with
  | ok found after =>
    rw [bind_of_ok hs] at h
    unfold located at h
    cases hfile : findFile? env after.supply found with
    | some place =>
      rw [hfile] at h
      obtain ⟨hpair, rfl⟩ := EStateM.Result.ok.inj h
      rw [(Prod.mk.inj hpair).1]
    | none =>
      rw [hfile] at h
      cases h
  | error fault after =>
    replace h : EStateM.bind (fileName env.limit) (located env) s = .ok (name, path) next := h
    rw [EStateM.bind, hs] at h
    cases h

/-- What `#include` does once its file is found. -/
theorem includeScript_of_namedFile {route : Route} (h : namedFile env s = .ok (name, path) next)
    (hroute : env.tree.resolve path = .ok route) :
    includeScript env s =
      if route ∈ next.supply.openFiles then .error (.includeCycle name) next
      else match env.tree.read path with
        | .ok content => .ok () { next with
            supply := next.supply.push (.file (some route) (.ofBytes path content.toList)) }
        | .error fault => .error (.unreadable path fault) next := by
  unfold includeScript
  rw [bind_of_ok h]
  dsimp only
  rw [hroute]
  show (if (next.supply.frames.any fun f => f.route? == some route) = true then
      throw (.includeCycle name)
      else ofFile path (env.tree.read path) >>= fun content =>
        pushFrame (.file (some route) (.ofBytes path content.toList)) : Parsing Unit) next = _
  simp only [Supply.any_route?_iff]
  split
  · rfl
  · cases env.tree.read path with
    | ok content | error fault => rfl

theorem statement_of_include {s₁ : ParseState}
    (h : peek env.limit s = .ok (.directive .includeScript) s₁) :
    statement env s =
      match includeScript env s₁ with
      | .ok _ next => .ok true next
      | .error fault next => .error fault next := by
  unfold statement
  rw [bind_of_ok h]
  show EStateM.bind (includeScript env) (fun _ => pure true) s₁ = _
  unfold EStateM.bind
  cases includeScript env s₁ with
  | ok u next | error fault next => rfl

/-- No file is open twice.  Where the line of an `#include` ends before its file does, the directive
    is checked against the files that led to it: one that is among them ends the reading, and any
    other is opened on top of them. -/
theorem include_of_open (env : Environment) (script : Script) (defines : List (String × Int64))
    (n : Nat) (s : ParseState) (hn : n < env.limit) (h : Reaches env n (script.start defines) s) :
    s.supply.openFiles.Nodup ∧
      ∀ s₁ s₂ name path route, peek env.limit s = .ok (.directive .includeScript) s₁ →
        s₁.supply.endsLine = true → namedFile env s₁ = .ok (name, path) s₂ →
        env.tree.resolve path = .ok route →
        (route ∈ s₁.supply.openFiles →
          (script.parse env defines).outcome = .error (.includeCycle name)) ∧
        (route ∉ s₁.supply.openFiles → s₂.supply.openFiles = s₁.supply.openFiles ∧
          ∀ content, env.tree.read path = .ok content →
            turn env s = .on { s₂ with
              supply := s₂.supply.push (.file (some route) (.ofBytes path content.toList)) }) := by
  have hstart : (script.start defines).supply.Tidy := by
    refine ⟨rfl, by simp [Script.start], ?_⟩
    show ([Frame.file script.route _].filterMap Frame.route?).Nodup
    cases script.route with
    | none => exact List.nodup_nil
    | some route => exact List.pairwise_singleton _ route
  have halong := kept_of_reaches Supply.kept_tidy (includes_tidy env) hstart h
  refine ⟨halong.supply.2.once, fun s₁ s₂ name path route hpeek hends hnamed hroute => ?_⟩
  have hfacing := kept_of_peek Supply.kept_tidy halong hpeek
  have hopen := openFiles_of_fileName hfacing.supply.2 hfacing.macros hfacing.left hends
    (fileName_of_namedFile hnamed)
  have hstatement := statement_of_include hpeek
  rw [includeScript_of_namedFile hnamed hroute, hopen] at hstatement
  constructor
  · intro hmem
    rw [if_pos hmem] at hstatement
    have hturn : turn env s = .stopped (.includeCycle name)
        (s₂.note .error s₂.supply.position (ParseFault.includeCycle name).message) := by
      simp only [turn, hstatement, isFatal, if_true]
    have hparse := statements_of_ends (h.ends (.stopped hturn)) hn
    rw [Script.parse, Script.script_eq, hparse]
  · intro hmem
    rw [if_neg hmem] at hstatement
    refine ⟨hopen, fun content hread => ?_⟩
    rw [hread] at hstatement
    simp only [turn, hstatement]

/-- A script with an included file. -/
def twoFiles (main included : String) : Environment :=
  { tree :=
      { entries :=
          [(["main.event"], .file (Utf8.encode main).toArray),
            (["included.event"], .file (Utf8.encode included).toArray)] }
    limit := 20 }

/-- The script of two files. -/
def mainScript (main : String) : Script :=
  { name := "main.event", content := Utf8.encode main, route := some ["main.event"] }

/-- Two files that include each other. -/
theorem include_of_open_each_other :
    let env := twoFiles "#include \"included.event\"\n" "BYTE 1\n#include \"main.event\"\n"
    let script := mainScript "#include \"included.event\"\n"
    let s := (turn env (turn env (script.start [])).state).state
    Reaches env 2 (script.start []) s ∧ s.supply.openFiles.Nodup ∧
      (script.parse env []).outcome = .error (.includeCycle "main.event") := by
  intro env script s
  have hreach : Reaches env 2 (script.start []) s := by
    refine .on (?_ : turn env (script.start []) = .on (turn env (script.start [])).state)
      (.on (?_ : turn env _ = .on s) (.refl s))
    · decide +kernel
    · decide +kernel
  obtain ⟨honce, hinclude⟩ := include_of_open env script [] 2 s (by decide) hreach
  let s₁ := finalState (peek env.limit s)
  refine ⟨hreach, honce, (hinclude s₁ (finalState (namedFile env s₁)) "main.event" "/main.event"
    ["main.event"] ?_ ?_ ?_ ?_).1 ?_⟩
  · decide +kernel
  · decide +kernel
  · decide +kernel
  · decide +kernel
  · decide +kernel

/-- A file whose last line includes the file itself, and has no end, is opened again. -/
theorem parse_reopened :
    let env := twoFiles "#include \"included.event\"\n#endif\n"
      "#ifndef ONCE\n#define ONCE\nBYTE 1\n#include \"included.event\""
    ((mainScript "#include \"included.event\"\n#endif\n").parse env []).outcome =
      .ok [⟨⟨"/included.event", 3, 1⟩, .data 1 [⟨[.number 1]⟩]⟩] := by
  decide +kernel

end Parsing

end CartScript
