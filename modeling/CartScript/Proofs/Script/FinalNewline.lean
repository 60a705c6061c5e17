import CartScript.Proofs.Script.Cycles
import CartScript.Proofs.Script.LastLine

/-!
# Files without a final newline

An included file whose last line has no end is read as if it had one, unless its last line does what
sees that the file was taken off: it names other files, starts a block that may be skipped, or uses
a macro with parameters.
-/

namespace CartScript

open TextStream (Round)
open Parsing

/-! ## A file with another content -/

namespace FileTree

variable {tree : FileTree} {route : Route} {content content' : Array UInt8}

theorem ne_nil_of_file (h : tree.entry? route = some (.file content)) : route ≠ [] := by
  rintro rfl
  cases h

theorem entry?_put (tree : FileTree) (hroute : route ≠ []) (entry : FileEntry) (place : Route) :
    FileTree.entry? (tree.put route entry) place =
      if place = route then some entry else tree.entry? place := by
  unfold entry? put
  dsimp only
  rw [List.lookup_append, lookup_filter_ne]
  by_cases hplace : place = route
  · subst hplace
    rw [if_pos rfl, if_pos rfl, if_neg hroute]
    simp
  · rw [if_neg hplace, if_neg hplace, List.lookup_cons, beq_false_of_ne hplace]
    simp

/-- Other contents at the same place lead nowhere else. -/
theorem walk_put (h : tree.entry? route = some (.file content)) (here : Route) (names : List String) :
    (tree.put route (.file content')).walk here names = tree.walk here names := by
  have hentry := entry?_put tree (ne_nil_of_file h) (.file content')
  induction names generalizing here with
  | nil => rfl
  | cons name names ih =>
    have hsome : (FileTree.entry? (tree.put route (.file content')) (here ++ [name])).isSome =
        (tree.entry? (here ++ [name])).isSome := by
      rw [hentry]
      split
      · rename_i hplace
        rw [hplace, h]
        rfl
      · rfl
    rw [walk, walk, hsome]
    by_cases hplace : here = route
    · subst hplace
      rw [hentry, if_pos rfl, h]
    · rw [hentry, if_neg hplace]
      simp only [ih]

/-- Which files there are does not depend on their content. -/
theorem resolve_put (h : tree.entry? route = some (.file content)) (path : Path) :
    (tree.put route (.file content')).resolve path = tree.resolve path := by
  unfold resolve
  split
  · exact walk_put h _ _
  · rfl

theorem read_of_file {path : Path} (hroute : tree.resolve path = .ok route)
    (h : tree.entry? route = some (.file content)) : tree.read path = .ok content := by
  simp only [read, hroute, readAt, h]

/-- A file is read as it was, unless it is the one with the other content. -/
theorem read_put (h : tree.entry? route = some (.file content)) (content' : Array UInt8) (path : Path) :
    (tree.put route (.file content')).read path =
      if tree.resolve path = .ok route then .ok content' else tree.read path := by
  have hentry := entry?_put tree (ne_nil_of_file h) (.file content')
  unfold read
  rw [resolve_put h]
  cases hresolve : tree.resolve path with
  | error fault => simp
  | ok place =>
    by_cases hplace : place = route
    · simp [hplace, readAt, hentry]
    · simp [hplace, readAt, hentry]

theorem isFile_put (h : tree.entry? route = some (.file content)) (path : Path) :
    (tree.put route (.file content')).isFile path = tree.isFile path := by
  have hentry := entry?_put tree (ne_nil_of_file h) (.file content')
  unfold isFile find?
  rw [resolve_put h]
  cases hresolve : tree.resolve path with
  | error fault => rfl
  | ok place =>
    by_cases hplace : place = route
    · simp [hplace, hentry, h, Except.toOption]
    · simp [hplace, hentry, Except.toOption]

end FileTree

/-! ## The last line -/

namespace Supply

/-- The sources down to the innermost file. -/
def innermost (s : Supply) : List Frame := s.stack.take (s.stack.findIdx Frame.isFile + 1)

/-- The innermost file is at some place, and on its last line. -/
def onLastLine (s : Supply) (route : Route) : Bool :=
  match s.stack.find? Frame.isFile with
  | some f => f.route? = some route && f.ahead.countP (fun r => Reading.isToken .lineEnd r.outcome) = 1
  | none => false

theorem find?_put_cons {f : Frame} {us : List Frame} (hf : f.isFile = true)
    (hus : ∀ u ∈ us, u.isFile = false) (root : Frame) (fs : List Frame) (lineEnded : Bool) :
    ((⟨root, f :: fs, lineEnded⟩ : Supply).put us).stack.find? Frame.isFile = some f ∧
      ((⟨root, f :: fs, lineEnded⟩ : Supply).put us).innermost = us ++ [f] := by
  unfold innermost put
  dsimp only
  induction us with
  | nil => simp [hf, List.findIdx_cons]
  | cons u us ih =>
    obtain ⟨hu, hus⟩ := List.forall_mem_cons.1 hus
    obtain ⟨hfind, htake⟩ := ih hus
    simp [hu, List.findIdx_cons, hfind, htake]

end Supply

/-- A statement that keeps to its line: it uses no macro with parameters, and is no directive that goes
    on after the line. -/
structure Parsing.Modest (env : Environment) (s : ParseState) : Prop where
  names : ∃ N, LongerFile.Plain s.macros N ∧ ∀ f ∈ s.supply.innermost, ∀ r ∈ f.ahead, ∀ name,
    r.outcome = .ok (.name name) → N name
  directive : ∀ d next, peek env.limit s = .ok (.directive d) next → d.goesOn = false

/-- There are no macros with parameters, and what is next is no directive that goes on after its line. -/
def Parsing.isModest (env : Environment) (s : ParseState) : Bool :=
  s.macros.entries.all (fun entry => entry.2.params.isNone) &&
    match peek env.limit s with
    | .ok (.directive d) _ => !d.goesOn
    | _ => true

theorem Parsing.modest_of_isModest {env : Environment} {s : ParseState} (h : isModest env s = true) :
    Modest env s := by
  obtain ⟨hmacros, hdirective⟩ := (Bool.and_eq_true_iff).1 h
  constructor
  · refine ⟨fun _ => True, fun name m hm _ => ⟨?_, fun _ _ _ _ => trivial⟩, fun _ _ _ _ _ _ => trivial⟩
    obtain ⟨before, after, hentries, _⟩ := List.lookup_eq_some_iff.1 hm
    have hmem : (name, m) ∈ s.macros.entries := by simp [hentries]
    exact Option.isNone_iff_eq_none.1 (List.all_eq_true.1 hmacros _ hmem)
  · intro d next hpeek
    rw [hpeek] at hdirective
    exact Bool.not_eq_true' _ ▸ hdirective

namespace LongerFile

variable {L : LongerFile} {env : Environment}

/-- The files with the newline. -/
def lengthen (L : LongerFile) (env : Environment) : Environment :=
  { env with tree := env.tree.put L.route (.file (L.content.push 0x0A)) }

/-- A file to which a newline is added: it is read as the end of a line, and statements on the last line
    keep to it. -/
structure Fits (L : LongerFile) (env : Environment) (script : Script)
    (defines : List (String × Int64)) : Prop where
  file : env.tree.entry? L.route = some (.file L.content)
  newline : Lengthened (TextStream.ofBytes "" (L.content.push 0x0A).toList).ahead
    (TextStream.ofBytes "" L.content.toList).ahead
  modest : ∀ n s, Reaches (L.lengthen env) n (script.start defines) s →
    s.supply.onLastLine L.route = true → Modest (L.lengthen env) s
  ends : (script.parse (L.lengthen env) defines).outcome ≠ .error .endless

variable {script : Script} {defines : List (String × Int64)}

theorem lengthened_ofBytes (h : L.Fits env script defines) (path : Path) :
    Lengthened (TextStream.ofBytes path (L.content.push 0x0A).toList).ahead
      (TextStream.ofBytes path L.content.toList).ahead := by
  obtain ⟨p, hahead⟩ := h.newline
  have hname (bytes : List UInt8) :=
    TextStream.ahead_inFile (TextStream.ofBytes "" bytes) path
  refine ⟨{ p with file := path }, ?_⟩
  show ({ TextStream.ofBytes "" (L.content.push 0x0A).toList with file := path } : TextStream).ahead =
    ({ TextStream.ofBytes "" L.content.toList with file := path } : TextStream).ahead ++ _
  rw [hname, hname, hahead, List.map_append]
  rfl

/-- Both sides find and read the same files. -/
theorem files (h : L.Fits env script defines) :
    Files L.inStep.beside (L.lengthen env) env.tree := by
  have hread (path : Path) := FileTree.read_put h.file (L.content.push 0x0A) path
  have hpair {path : Path} {content content' : Array UInt8}
      (hleft : (L.lengthen env).tree.read path = .ok content)
      (hright : env.tree.read path = .ok content') :
      (env.tree.resolve path = .ok L.route ∧ content = L.content.push 0x0A ∧ content' = L.content) ∨
        content = content' := by
    replace hleft := (hread path).symm.trans hleft
    split at hleft
    · rename_i hroute
      have hcontent := (FileTree.read_of_file hroute h.file).symm.trans hright
      exact .inl ⟨hroute, (Except.ok.inj hleft).symm, (Except.ok.inj hcontent).symm⟩
    · exact .inr (Except.ok.inj (hleft.symm.trans hright))
  refine Synced.files between_skipLine ?_ ?_ ?_ ?_ ?_
  · exact FileTree.resolve_put h.file
  · exact FileTree.isFile_put h.file
  · intro path fault
    rw [show (L.lengthen env).tree.read path = _ from hread path]
    split
    · rename_i hroute
      rw [FileTree.read_of_file hroute h.file]
      simp
    · exact .rfl
  · intro path route content content' hroute hleft hright
    replace hroute := (FileTree.resolve_put h.file path).symm.trans hroute
    rcases hpair hleft hright with ⟨hsame, rfl, rfl⟩ | rfl
    · obtain rfl := Except.ok.inj (hroute.symm.trans hsame)
      exact .inr ⟨rfl, lengthened_ofBytes h path⟩
    · exact .inl rfl
  · rintro path content content' p q hleft hright rfl
    rcases hpair hleft hright with ⟨_, rfl, rfl⟩ | rfl
    · exact .inr ⟨rfl, rfl, rfl⟩
    · exact .inl rfl

/-! ## All together -/

theorem uses_of_names {N : String → Prop} {us us' : List Frame} (h : List.Forall₂ (UseNear Eq) us us')
    (hnames : ∀ u ∈ us, ∀ r ∈ u.ahead, ∀ name, r.outcome = .ok (.name name) → N name) :
    List.Forall₂ (uses N).Use us us' := by
  induction h with
  | nil => exact .nil
  | cons huv _ ih =>
    obtain ⟨hfirst, hrest⟩ := List.forall_mem_cons.1 hnames
    exact .cons ⟨huv, hfirst⟩ (ih hrest)

/-- What is over the last line of the file is on its last line. -/
theorem onLastLine_of_overLast {s t : Supply} (h : L.OverLast s t) :
    s.onLastLine L.route = true ∧ ∀ N : String → Prop,
      (∀ f ∈ s.innermost, ∀ r ∈ f.ahead, ∀ name, r.outcome = .ok (.name name) → N name) →
      (L.lastLine N).Within s t := by
  obtain ⟨us, us', _, _, rfl, rfl, huses, root, root', f, g, fs, gs, rfl, rfl, hfg, hbelow⟩ := h
  obtain ⟨p, hahead⟩ := hfg.ahead
  have hus : ∀ u ∈ us, u.isFile = false := by
    induction huses with
    | nil => simp
    | cons huv _ ih => exact List.forall_mem_cons.2 ⟨huv.isFile, ih⟩
  obtain ⟨hfind, hinner⟩ := Supply.find?_put_cons hfg.left hus root fs false
  constructor
  · have hcount : g.ahead.countP (fun r => Reading.isToken .lineEnd r.outcome) = 0 :=
      List.countP_eq_zero.2 fun r hr hend => hfg.line r hr ((Reading.isToken_iff _ _).1 hend)
    simp [Supply.onLastLine, hfind, hfg.route, hahead, List.countP_append, hcount]
  · intro N hnames
    rw [hinner] at hnames
    obtain ⟨hnames, hlast⟩ := List.forall_mem_append.1 hnames
    refine ⟨us, us', ⟨root, f :: fs, false⟩, ⟨root', g :: gs, false⟩, .inr rfl, rfl, rfl,
      uses_of_names huses hnames, .inl ⟨root, root', f, g, fs, gs, rfl, rfl, ?_, hbelow⟩⟩
    refine ⟨hfg.left, hfg.right, hfg.route, hfg.route', hfg.ahead, hfg.line, fun r hr => ?_⟩
    refine hlast f (.head _) r ?_
    rw [hahead]
    exact List.mem_append_left _ hr

/-- A turn, or one of the left side alone, from any state between statements. -/
theorem step (h : L.Fits env script defines) {s t : ParseState}
    (hst : L.inStep.beside.Along L.Settled s t)
    (hmodest : s.supply.onLastLine L.route = true → Modest (L.lengthen env) s) :
    Steps (L.inStep.beside.Along L.Settled) L.inStep.beside.Told (L.lengthen env) env s t := by
  have hlimit : (L.lengthen env).limit ≠ 0 := Script.limit_ne_zero h.ends
  have hlimit' : env.limit ≠ 0 := hlimit
  rcases hst.supply with hrested | ⟨root, f, fs, hs, hfile, hahead, hbelow⟩ | hhalfway
  · right
    rcases within_or_overLast hrested with hwithin | hover
    · exact turnRel_inStep (files h) (hst.weaken fun _ => hwithin)
    · obtain ⟨hlast, hnames⟩ := onLastLine_of_overLast hover
      obtain ⟨N, hplain, hnamed⟩ := (hmodest hlast).names
      exact turnRel_lastLine (hst.weaken fun _ => hnames N hnamed) hplain (hmodest hlast).directive
  · -- The left side leaves the file, which the right side has left already.
    have hpeek : s.supply.peek = (.ok .lineEnd, ⟨root, fs, true⟩) := by
      rw [hs]
      exact Synced.peek_fileEnd fs hfile (Frame.peek_of_ahead_nil hahead)
    exact .inl ⟨_, turn_of_lineEnd hlimit hpeek, { hst with supply := .inl hbelow }⟩
  · obtain ⟨hread, hpeek, _, hextra⟩ := hhalfway.peek
    have hleft : s.supply.peek = (.ok .lineEnd, s.supply.peek.2) := Prod.ext hread rfl
    right
    rw [turn_of_lineEnd hlimit hleft, turn_of_lineEnd hlimit' hpeek]
    exact .on (hst.move (.inr (.inl hextra)))

/-- A final newline of an included file changes neither the statements nor what is said, as long as
    the statements on its last line keep to that line.  Only the bytes of the file itself differ, where
    `#incbin` takes them, and the places of messages: where the line has no end, they are about the file
    below. -/
theorem parse_final_newline (L : LongerFile) (env : Environment) (script : Script)
    (defines : List (String × Int64)) (h : L.Fits env script defines) :
    Parsed.Alike L.Same (script.parse (L.lengthen env) defines) (script.parse env defines) := by
  have hlimit : env.limit = (L.lengthen env).limit := rfl
  refine Script.parse_alike hlimit (fun n s t hs hst => step h hst (h.modest n s hs)) ?_ h.ends
  exact ⟨.inl ⟨rfl, .nil, ⟨rfl, rfl, rfl⟩, rfl⟩, Script.predefined_near (fun _ => rfl) defines, rfl,
    .nil, .nil⟩

/-- A label and a use of a macro on the last line. -/
theorem parse_final_newline_label :
    let main := "#include \"included.event\"\nBYTE 3\n"
    let included := "#define A 1\nL: BYTE A"
    let env := { twoFiles main included with limit := 40 }
    let L : LongerFile := ⟨["included.event"], (Utf8.encode included).toArray⟩
    L.Fits env (mainScript main) [] ∧
      Parsed.Alike L.Same ((mainScript main).parse (L.lengthen env) [])
        ((mainScript main).parse env []) := by
  intro main included env L
  let start := (mainScript main).start []
  let states := (states? (L.lengthen env) 40 start).getD []
  have hstates : states? (L.lengthen env) 40 start = some states := by decide +kernel
  have hfits : L.Fits env (mainScript main) [] := by
    refine ⟨?_, ⟨⟨"", 2, 10⟩, ?_⟩, ?_, ?_⟩
    · decide +kernel
    · decide +kernel
    · intro n s hs hlast
      have hall : ∀ s ∈ states, s.supply.onLastLine L.route = true →
          isModest (L.lengthen env) s = true := by decide +kernel
      exact modest_of_isModest (hall s (hs.mem_states? hstates) hlast)
    · decide +kernel
  exact ⟨hfits, parse_final_newline L env (mainScript main) [] hfits⟩

/-- A file that a last line without end names is looked up beside the file below. -/
theorem parse_not_alike_lengthened :
    let main := "#include \"lib/b.event\"\n"
    let L : LongerFile := ⟨["lib", "b.event"], (Utf8.encode "#include \"c.event\"").toArray⟩
    let env : Environment :=
      { tree :=
          { entries :=
              [(["main.event"], .file (Utf8.encode main).toArray), (["lib"], .directory),
                (L.route, .file L.content),
                (["lib", "c.event"], .file (Utf8.encode "BYTE 1\n").toArray)] }
        limit := 40 }
    ((mainScript main).parse (L.lengthen env) []).outcome =
        .ok [⟨⟨"/lib/c.event", 1, 1⟩, .data 1 [⟨[.number 1]⟩]⟩] ∧
      ((mainScript main).parse env []).outcome = .ok [] ∧
      ((mainScript main).parse env []).diagnostics.map Diagnostic.text =
        ["file not found: \"c.event\""] := by
  decide +kernel

end LongerFile

end CartScript
