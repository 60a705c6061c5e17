import CartScript.Proofs.Registry.Reached

/-!
# Directories and manifests

The definitions of a directory can be loaded at once, or by a manifest: a file of the directory that
includes the others in the order of their names.  Both give the same codes, which differ only in how
the path of their file is written, or both fail.

The two loaders go side by side.  Only a file that includes the manifest can tell them apart, and it
ends in a cycle for both.
-/

namespace CartScript

/-- The codes are the same but for how the path of their file is written. -/
structure Code.SameElsewhere (tree : FileTree) (c c' : Code) : Prop where
  rest : c' = { c with origin := c'.origin }
  origin : ∃ (file other : String) (route : Route) (line : Nat), c.origin = s!"{file}:{line}" ∧
    c'.origin = s!"{other}:{line}" ∧ tree.resolve file = .ok route ∧ tree.resolve other = .ok route

namespace Loader

variable {tree : FileTree}

variable {codes codes' : List Code} {file file' name : String}

theorem clashes_congr (h : List.Forall₂ (Code.SameElsewhere tree) codes codes') (c : Code) :
    (∃ d ∈ codes', d.Clashes c) ↔ ∃ d ∈ codes, d.Clashes c := by
  induction h with
  | nil => simp
  | @cons d d' _ _ hcode _ ih =>
    have hd : d'.Clashes c ↔ d.Clashes c := by
      rw [hcode.rest]
      rfl
    simp [ih, hd]

theorem numbered_sameElsewhere (h : List.Forall₂ (Code.SameElsewhere tree) codes codes') :
    List.Forall₂ (Code.SameElsewhere tree) (Registry.numbered codes).codes.toList
      (Registry.numbered codes').codes.toList := by
  obtain ⟨hlength, hget⟩ := List.forall₂_iff_get.1 h
  rw [Registry.toList_codes_numbered, Registry.toList_codes_numbered]
  refine List.forall₂_iff_get.2 ⟨by simp [hlength], ?_⟩
  intro i hi hi'
  simp only [List.length_mapIdx] at hi hi'
  have hcode := hget i hi hi'
  simp only [List.get_eq_getElem, List.getElem_mapIdx] at hcode ⊢
  exact ⟨by rw [hcode.rest], hcode.origin⟩

/-! ## Manifests -/

/-- The includes of files by their names, seen from a directory. -/
def includesFrom (base : Path) (names : List String) : List Item :=
  names.map fun name => .includes (Path.join base name)

/-- Files of a directory, and a file of includes of them.  Seen from the directory as it is written
    the files are found; seen from the place of the directory the same files are found, if their paths
    are not too long to open them. -/
structure Manifest (tree : FileTree) (directory : Path) (place : Route) (files : List String)
    (manifest : Route) : Prop where
  near : ∀ name ∈ files, tree.resolve (Path.join directory name) = .ok (place ++ [name])
  far : ∀ name ∈ files, tree.resolve (Path.join place.render name) = .ok (place ++ [name]) ∨
    (∃ fault, tree.openTextAt (place ++ [name]) = .error fault) ∧
      ∃ fault, tree.resolve (Path.join place.render name) = .error fault
  readable : ∃ text, tree.openTextAt manifest = .ok text
  items : itemsAt tree manifest = includesFrom place.render files

variable {directory : Path} {place : Route} {files : List String} {manifest : Route}

variable {loader loader' : Loader} {depth : Nat} {path path' : Path} {route : Route}

/-! ## The manifest on the way -/

/-- One of the files is still being read, and those up to it were begun. -/
def Shut (place : Route) (files : List String) (loader : Loader) : Prop :=
  ∃ before name after, files = before ++ name :: after ∧ place ++ [name] ∈ loader.reading ∧
    ∀ other ∈ before ++ [name], place ++ [other] ∈ loader.begun

theorem Shut.mono {next : Loader} (h : Shut place files loader)
    (hreading : ∀ route ∈ loader.reading, route ∈ next.reading)
    (hbegun : ∀ route ∈ loader.begun, route ∈ next.begun) : Shut place files next := by
  obtain ⟨before, name, after, hfiles, hopen, hbefore⟩ := h
  exact ⟨before, name, after, hfiles, hreading _ hopen, fun other h => hbegun _ (hbefore other h)⟩

theorem readFile_of_begun (h : ∀ route, tree.resolve path = .ok route → route ∈ loader.begun) :
    (∃ fault, readFile tree depth loader path = .error fault) ∨
      readFile tree depth loader path = .ok loader ∧
        ∃ route, tree.resolve path = .ok route ∧ route ∉ loader.reading := by
  cases depth with
  | zero => exact .inl ⟨_, rfl⟩
  | succ depth =>
    rw [readFile_eq]
    cases hroute : tree.resolve path with
    | error fault => exact .inl ⟨_, rfl⟩
    | ok route =>
      by_cases hopen : route ∈ loader.reading
      · exact .inl ⟨_, if_pos hopen⟩
      · exact .inr ⟨(if_neg hopen).trans (if_pos (h route hroute)), route, rfl, hopen⟩

/-- A manifest is not read to the end if one of its files is still being read and those before it were
    begun. -/
theorem Shut.follow_manifest (hm : Manifest tree directory place files manifest)
    (h : Shut place files loader) : ∃ fault,
      follow (readFile tree depth) file (includesFrom place.render files) loader = .error fault := by
  obtain ⟨before, name, after, hfiles, hopen, hbegun⟩ := h
  have hread : ∀ other ∈ before ++ [name], (∃ fault,
      readFile tree depth loader (Path.join place.render other) = .error fault) ∨
      readFile tree depth loader (Path.join place.render other) = .ok loader ∧ other ≠ name := by
    intro other hother
    have hroute : ∀ route, tree.resolve (Path.join place.render other) = .ok route →
        route = place ++ [other] := by
      intro route hroute
      have hmem : other ∈ files := by
        rw [hfiles, List.append_cons]
        exact List.mem_append_left _ hother
      rcases hm.far other hmem with hfar | ⟨_, _, hfar⟩
      · exact Except.ok.inj (hroute.symm.trans hfar)
      · simp [hfar] at hroute
    rcases readFile_of_begun fun route h => hroute route h ▸ hbegun other hother with
      herror | ⟨heq, route, hok, hclosed⟩
    · exact .inl herror
    · refine .inr ⟨heq, ?_⟩
      rintro rfl
      exact hclosed (hroute route hok ▸ hopen)
  rw [hfiles]
  clear hfiles hbegun
  induction before with
  | nil =>
    obtain ⟨fault, heq⟩ := (hread name (by simp)).resolve_right fun h => h.2 rfl
    exact ⟨fault, by simp [includesFrom, follow, heq]⟩
  | cons other before ih =>
    rcases hread other (by simp) with ⟨fault, heq⟩ | ⟨heq, -⟩
    · exact ⟨fault, by simp [includesFrom, follow, heq]⟩
    · obtain ⟨fault, hrest⟩ := ih fun other h => hread other (.tail _ h)
      exact ⟨fault, by simpa [includesFrom, follow, heq] using hrest⟩

/-! ## Two loaders side by side -/

/-- Both paths lead to the same place, or one leads to a file that cannot be opened and the other one
    nowhere. -/
def SamePlace (tree : FileTree) (path path' : Path) : Prop :=
  tree.resolve path' = tree.resolve path ∨ ∃ route fault fault', tree.resolve path = .ok route ∧
    tree.openTextAt route = .error fault ∧ tree.resolve path' = .error fault'

/-- The loader of a directory beside that of its manifest, which is being read. -/
structure Beside (tree : FileTree) (manifest : Route) (loader loader' : Loader) : Prop where
  tidy : loader'.Tidy tree
  reading : ∀ route, route ∈ loader'.reading ↔ route = manifest ∨ route ∈ loader.reading
  begun : ∀ route, route ∈ loader'.begun ↔ route = manifest ∨ route ∈ loader.begun
  fresh : manifest ∉ loader.begun
  codes : ∃ codes codes', loader.registry = .numbered codes ∧ loader'.registry = .numbered codes' ∧
    List.Forall₂ (Code.SameElsewhere tree) codes codes'

/-- Both loaders fail, or both go on with the files that were being read, and after some that were
    begun. -/
inductive Ends (tree : FileTree) (manifest : Route) (loader loader' : Loader)
    (Begun : Route → Prop) : Except LoadFault Loader → Except LoadFault Loader → Prop
  | error {fault fault' : LoadFault} :
      Ends tree manifest loader loader' Begun (.error fault) (.error fault')
  | ok {done done' : Loader} (h : Beside tree manifest done done')
      (hreading : done.reading = loader.reading) (hreading' : done'.reading = loader'.reading)
      (hbegun : ∀ route, Begun route → route ∈ done.begun) :
      Ends tree manifest loader loader' Begun (.ok done) (.ok done')

theorem Ends.after {next next' : Loader} {P Q : Route → Prop} {x x' : Except LoadFault Loader}
    (h : Ends tree manifest next next' P x x') (hreading : next.reading = loader.reading)
    (hreading' : next'.reading = loader'.reading) (hQP : ∀ route, Q route → P route) :
    Ends tree manifest loader loader' Q x x' := by
  cases h with
  | error => exact .error
  | ok h hr hr' hbegun =>
    exact .ok h (hr.trans hreading) (hr'.trans hreading') fun route hroute =>
      hbegun route (hQP route hroute)

/-- Items of one file are followed side by side if files are read side by side. -/
theorem follow_ends {read read' : ReadFile}
    (hread : ∀ {loader loader'} path, Beside tree manifest loader loader' → Shut place files loader →
      tree.size < depth + loader'.reading.length →
      Ends tree manifest loader loader' (· ∈ loader.begun) (read loader path) (read' loader' path))
    (hfile : tree.resolve file = .ok route) (hfile' : tree.resolve file' = .ok route)
    (h : Beside tree manifest loader loader') (hshut : Shut place files loader)
    (hdepth : tree.size < depth + loader'.reading.length) (items : List Item) :
    Ends tree manifest loader loader' (· ∈ loader.begun) (follow read file items loader)
      (follow read' file' items loader') := by
  induction items generalizing loader loader' with
  | nil => exact .ok h rfl rfl fun _ h => h
  | cons item items ih =>
    cases item with
    | code line code =>
      obtain ⟨codes, codes', hcodes, hcodes', hsame⟩ := h.codes
      have hclash := clashes_congr hsame code
      rw [follow, follow, hcodes, hcodes']
      rcases Registry.insert_numbered codes (code.declaredIn file line) with
        ⟨hc, _, hinsert⟩ | ⟨hc, hinsert⟩ <;>
        rcases Registry.insert_numbered codes' (code.declaredIn file' line) with
          ⟨hc', _, hinsert'⟩ | ⟨hc', hinsert'⟩
      · rw [hinsert, hinsert']
        exact .error
      · obtain ⟨d, hd, hdc⟩ := hclash.2 hc
        exact absurd hdc (hc' d hd)
      · obtain ⟨d, hd, hdc⟩ := hclash.1 hc'
        exact absurd hdc (hc d hd)
      · rw [hinsert, hinsert']
        have hcode : Code.SameElsewhere tree (code.declaredIn file line) (code.declaredIn file' line) :=
          ⟨rfl, file, file', route, line, rfl, rfl, hfile, hfile'⟩
        have hnext : Beside tree manifest
            { loader with registry := .numbered (codes ++ [code.declaredIn file line]) }
            { loader' with registry := .numbered (codes' ++ [code.declaredIn file' line]) } :=
          { h with
            tidy := h.tidy.insert (hcodes' ▸ hinsert')
            codes := ⟨_, _, rfl, rfl, List.rel_append hsame (.cons hcode .nil)⟩ }
        exact (ih hnext hshut hdepth).after rfl rfl fun _ h => h
    | includes path =>
      have hnext := hread path h hshut hdepth
      rw [follow, follow]
      generalize read loader path = outcome, read' loader' path = outcome' at hnext
      cases hnext with
      | error => exact .error
      | ok hnext hreading hreading' hbegun =>
        have hshut' := hshut.mono (fun _ h => hreading ▸ h) hbegun
        exact (ih hnext hshut' (hreading' ▸ hdepth)).after hreading hreading' hbegun
    | wrong line fault => exact .error

/-- A file is read side by side, if the manifest cannot be read in it. -/
theorem readFile_ends (hm : Manifest tree directory place files manifest)
    (h : Beside tree manifest loader loader') (hdepth : tree.size < depth + loader'.reading.length)
    (hsame : SamePlace tree path path')
    (hshut : ∀ route, tree.resolve path = .ok route → Shut place files (loader.enter route)) :
    Ends tree manifest loader loader' (fun route => route ∈ loader.begun ∨ tree.resolve path = .ok route)
      (readFile tree (depth + 1) loader path) (readFile tree depth loader' path') := by
  induction depth generalizing loader loader' path path' with
  | zero =>
    have hle := h.tidy.length_reading_le
    omega
  | succ depth ih =>
    rw [readFile_eq, readFile_eq]
    rcases hsame with hpath | ⟨route, fault, fault', hroute, htext, hpath⟩
    · cases hroute : tree.resolve path with
      | error fault =>
        rw [hpath, hroute]
        exact .error
      | ok route =>
        rw [hpath, hroute]
        simp only [Except.mapError, Except.bind, h.reading, h.begun]
        by_cases hmanifest : route = manifest
        · -- One loader reads the manifest already, and the other one cannot read it to the end.
          subst hmanifest
          simp only [true_or, if_true, if_neg h.fresh]
          split
          · exact .error
          · obtain ⟨text, htext⟩ := hm.readable
            obtain ⟨fault, hfault⟩ := (hshut route hroute).follow_manifest hm
            rw [htext]
            dsimp only
            rw [← itemsAt_eq htext, hm.items, hfault]
            exact .error
        · simp only [hmanifest, false_or]
          split
          · exact .error
          · rename_i hopen
            split
            · rename_i hbegun
              refine .ok h rfl rfl ?_
              rintro _ (hother | ⟨⟨⟩⟩)
              · exact hother
              · exact hbegun
            · rename_i hbegun
              cases htext : tree.openTextAt route with
              | error fault => exact .error
              | ok text =>
                have henter : Beside tree manifest (loader.enter route) (loader'.enter route) :=
                  { tidy := h.tidy.enter (by simpa [h.reading, hmanifest] using hopen) htext
                    reading := by simp [enter, h.reading, or_left_comm]
                    begun := by simp [enter, h.begun, or_left_comm]
                    fresh := by simpa [enter, Ne.symm hmanifest] using h.fresh
                    codes := h.codes }
                have hread {loader loader' : Loader} (path : Path)
                    (h : Beside tree manifest loader loader') (hshut : Shut place files loader)
                    (hdepth : tree.size < depth + loader'.reading.length) :
                    Ends tree manifest loader loader' (· ∈ loader.begun)
                      (readFile tree (depth + 1) loader path) (readFile tree depth loader' path) := by
                  refine (ih h hdepth (.inl rfl) fun route _ => ?_).after rfl rfl fun _ => .inl
                  exact hshut.mono (fun _ => List.mem_cons_of_mem _) fun _ => List.mem_cons_of_mem _
                have hinner := follow_ends hread hroute (hpath.trans hroute) henter (hshut route hroute)
                  (by rw [enter, List.length_cons]; omega) (outline route.parent.render text)
                dsimp only
                generalize follow _ path _ _ = outcome, follow _ path' _ _ = outcome' at hinner
                cases hinner with
                | error => exact .error
                | ok hdone hreading hreading' hbegun =>
                  refine .ok { hdone with
                    tidy := h.tidy.leave hdone.tidy hreading', reading := h.reading } rfl rfl ?_
                  rintro other (hother | ⟨⟨⟩⟩)
                  · exact hbegun _ (.tail _ hother)
                  · exact hbegun _ (.head _)
    · -- What was begun can be opened.
      have hbegun : route ∉ loader.begun := by
        intro hbegun
        obtain ⟨text, hok⟩ := h.tidy.readable route ((h.begun route).2 (.inr hbegun))
        simp [htext] at hok
      rw [hpath, hroute]
      simp only [Except.mapError, Except.bind, if_neg hbegun, htext]
      split <;> exact .error

/-- The files of a directory are read side by side. -/
theorem follow_includesFrom_ends (file file' : String)
    (hm : Manifest tree directory place files manifest) {before after : List String} (hfiles : files = before ++ after)
    (h : Beside tree manifest loader loader') (hdepth : tree.size < depth + loader'.reading.length)
    (hbefore : ∀ name ∈ before, place ++ [name] ∈ loader.begun) :
    Ends tree manifest loader loader' (fun _ => False)
      (follow (readFile tree (depth + 1)) file (includesFrom directory after) loader)
      (follow (readFile tree depth) file' (includesFrom place.render after) loader') := by
  induction after generalizing before loader loader' with
  | nil => exact .ok h rfl rfl fun _ h => h.elim
  | cons name after ih =>
    have hname : name ∈ files := by simp [hfiles]
    have hsame : SamePlace tree (Path.join directory name) (Path.join place.render name) := by
      rcases hm.far name hname with hfar | ⟨⟨fault, htext⟩, fault', hfar⟩
      · exact .inl (hfar.trans (hm.near name hname).symm)
      · exact .inr ⟨_, fault, fault', hm.near name hname, htext, hfar⟩
    have hnext := readFile_ends hm h hdepth hsame fun route hroute => by
      obtain rfl := Except.ok.inj ((hm.near name hname).symm.trans hroute)
      refine ⟨before, name, after, hfiles, .head _, List.forall_mem_append.2 ⟨?_, ?_⟩⟩
      · exact fun other hother => .tail _ (hbefore other hother)
      · simp [enter]
    rw [includesFrom, includesFrom, List.map_cons, List.map_cons, follow, follow]
    generalize readFile _ _ loader _ = outcome, readFile _ _ loader' _ = outcome' at hnext
    cases hnext with
    | error => exact .error
    | ok hnext hreading hreading' hbegun =>
      have hbefore' : ∀ other ∈ before ++ [name], place ++ [other] ∈ _ :=
        List.forall_mem_append.2 ⟨fun other h => hbegun _ (.inl (hbefore other h)),
          by simpa using hbegun _ (.inr (hm.near name hname))⟩
      exact (ih (by simp [hfiles]) hnext (hreading' ▸ hdepth) hbefore').after hreading hreading'
        fun _ h => h

/-! ## The text of a manifest -/

/-- The line that includes a file. -/
def includeLine (name : String) : List Char := "#include \"".toList ++ name.toList ++ ['"']

theorem trim_eq_self {first last : Char} (hfirst : Text.isBlank first = false)
    (hlast : Text.isBlank last = false) (middle : List Char) :
    Text.trim (first :: (middle ++ [last])) = first :: (middle ++ [last]) := by
  have hstart : Text.trimStart (first :: (middle ++ [last])) = first :: (middle ++ [last]) :=
    List.dropWhile_cons_of_neg (by simp [hfirst])
  rw [Text.trim, hstart, Text.trimEnd]
  simp [hlast]

theorem classify_includeLine (name : String) :
    Line.classify (includeLine name) = .includes (' ' :: '"' :: (name.toList ++ ['"'])) := by
  have hline : includeLine name = '#' :: ("include \"".toList ++ name.toList ++ ['"']) := rfl
  have htrim : Text.trim (includeLine name) = includeLine name := by
    rw [hline]
    exact trim_eq_self (show Text.isBlank '#' = false by decide) (show Text.isBlank '"' = false by decide)
      ("include \"".toList ++ name.toList)
  rw [Line.classify, htrim]
  rfl

theorem quoted?_includeLine (hname : '"' ∉ name.toList) :
    quoted? (' ' :: '"' :: (name.toList ++ ['"'])) = some name.toList := by
  have hplain : ∀ c ∈ name.toList, (c != '"') = true := by
    intro c hc
    exact bne_iff_ne.2 fun heq => hname (heq ▸ hc)
  have htrim : Text.trim (' ' :: '"' :: (name.toList ++ ['"'])) = '"' :: (name.toList ++ ['"']) :=
    trim_eq_self (show Text.isBlank '"' = false by decide) (show Text.isBlank '"' = false by decide)
      name.toList
  have hcut : Text.cut? '"' (name.toList ++ ['"']) = some (name.toList, []) := by
    rw [Text.cut?, List.dropWhile_append_of_pos hplain, List.takeWhile_append_of_pos hplain]
    simp
  rw [quoted?, htrim]
  simp [hcut, Text.trim, Text.trimStart, Text.trimEnd]

theorem outlineFrom_includes (base : Path) {files : List String}
    (hquotes : ∀ name ∈ files, '"' ∉ name.toList) (number : Nat) (doc : Option String) :
    outlineFrom base number (files.map includeLine) none doc = includesFrom base files := by
  induction files generalizing number with
  | nil => rfl
  | cons name files ih =>
    rw [List.map_cons, outlineFrom, classify_includeLine]
    simp only [quoted?_includeLine (hquotes name (.head _)), String.ofList_toList]
    rw [ih fun other hother => hquotes other (.tail _ hother)]
    rfl

end Loader

namespace Registry

open Loader

variable {tree : FileTree} {directory : Path} {extension : String} {place : Route}

/-! ## The files of a directory -/

/-- A file of the directory that has the extension, which may be written with its dot. -/
def IsDefinitionFile (tree : FileTree) (directory : Path) (extension name : String) : Prop :=
  ∃ names, tree.list directory = .ok names ∧ name ∈ names ∧
    tree.isFile (Path.join directory name) = true ∧
    Path.extension? name = some (String.ofList (extension.toList.dropWhile (· == '.')))

variable {files names : List String}

theorem namesAt_of_list (hplace : tree.resolve directory = .ok place)
    (h : tree.list directory = .ok names) : names = tree.namesAt place := by
  rw [FileTree.list, hplace] at h
  simp only at h
  split at h
  · exact (Except.ok.inj h).symm
  · simp at h

/-- The files of a directory in the order of their names. -/
theorem definitionFiles_eq (htree : tree.Lawful) (hplace : tree.resolve directory = .ok place)
    (hnames : tree.list directory = .ok names)
    (hfiles : ∀ name, name ∈ files ↔ IsDefinitionFile tree directory extension name)
    (hsorted : files.Pairwise (· < ·)) :
    definitionFiles tree directory extension names = files.map (Path.join directory) := by
  rw [definitionFiles]
  congr 1
  -- Both lists are sorted and have the same members.
  refine List.Perm.eq_of_pairwise (fun a b _ _ => String.le_antisymm) ?_ ?_ ?_
  · have htotal : ∀ a b : String, (decide (a ≤ b) || decide (b ≤ a)) = true := by
      intro a b
      simpa using String.le_total a b
    have htrans : ∀ a b c : String, decide (a ≤ b) = true → decide (b ≤ c) = true →
        decide (a ≤ c) = true := by
      intro a b c hab hbc
      simp only [decide_eq_true_eq] at hab hbc ⊢
      exact String.le_trans hab hbc
    exact (List.pairwise_mergeSort htrans htotal _).imp fun h => of_decide_eq_true h
  · exact hsorted.imp fun {a b} hlt => (String.le_total a b).resolve_right (String.not_le.2 hlt)
  · refine (List.mergeSort_perm _ _).trans ((List.perm_ext_iff_of_nodup ?_ ?_).2 ?_)
    · rw [namesAt_of_list hplace hnames]
      exact (htree.nodup_namesAt place).filter _
    · refine hsorted.imp ?_
      rintro a b hlt rfl
      exact String.lt_irrefl a hlt
    · intro name
      rw [hfiles, List.mem_filter, Bool.and_eq_true, beq_iff_eq]
      constructor
      · rintro ⟨hmem, hfile, hextension⟩
        exact ⟨names, hnames, hmem, hfile, hextension⟩
      · rintro ⟨names', hnames', hmem, hfile, hextension⟩
        obtain rfl := Except.ok.inj (hnames.symm.trans hnames')
        exact ⟨hmem, hfile, hextension⟩

/-- Names of files in a directory, and what stands there. -/
theorem place_of_isDefinitionFile (htree : tree.Lawful) (hplace : tree.resolve directory = .ok place)
    {name : String} (h : IsDefinitionFile tree directory extension name) :
    tree.resolve (Path.join directory name) = .ok (place ++ [name]) ∧
      (∃ entry, tree.entry? (place ++ [name]) = some entry) ∧
      ∀ other ∈ place ++ [name], Path.IsName other := by
  obtain ⟨names, hnames, hmem, hfile, _⟩ := h
  rw [namesAt_of_list hplace hnames] at hmem
  obtain ⟨entry, hentry⟩ := FileTree.mem_namesAt hmem
  have hproper : ∀ other ∈ place ++ [name], Path.IsName other :=
    fun other hother => (htree.names _ hentry other hother).1
  have hname := hproper name (by simp)
  rw [FileTree.isFile, FileTree.find?] at hfile
  cases hthere : tree.resolve (Path.join directory name) with
  | error fault => simp [hthere, Except.toOption] at hfile
  | ok there =>
    obtain rfl := FileTree.resolve_join hname hplace hthere
    refine ⟨rfl, ?_, hproper⟩
    cases hentry' : tree.entry? (place ++ [name]) with
    | none => simp [hthere, Except.toOption, hentry'] at hfile
    | some entry => exact ⟨entry, rfl⟩

/-- A file of include lines is a manifest. -/
theorem manifest_of_lines (htree : tree.Lawful) (hplace : tree.resolve directory = .ok place)
    (hfiles : ∀ name ∈ files, IsDefinitionFile tree directory extension name)
    (hquotes : ∀ name ∈ files, '"' ∉ name.toList) {own text : String}
    (htext : tree.openTextAt (place ++ [own]) = .ok text)
    (hlines : Text.lines text.toList = files.map includeLine) :
    Manifest tree directory place files (place ++ [own]) where
  near := fun name hname => (place_of_isDefinitionFile htree hplace (hfiles name hname)).1
  far := by
    intro name hname
    obtain ⟨_, ⟨entry, hentry⟩, hproper⟩ :=
      place_of_isDefinitionFile htree hplace (hfiles name hname)
    rw [Route.join_render (fun other hother => hproper other (by simp [hother]))
      (hproper name (by simp))]
    cases hcheck : FileTree.checkPath (place ++ [name]).render with
    | ok =>
      left
      exact htree.resolve_render (by simp) hentry hcheck
    | error fault =>
      right
      exact ⟨⟨fault, by rw [FileTree.openTextAt, hcheck]⟩, fault, by rw [FileTree.resolve, hcheck]⟩
  readable := ⟨text, htext⟩
  items := by
    rw [itemsAt_eq htext, outline, hlines, Route.parent, List.dropLast_concat]
    exact outlineFrom_includes place.render hquotes 1 none

/-! ## A directory and its manifest -/

/-- Loading the files of a directory that have an extension, and loading a manifest of them in the same
    directory, both fail or give the same codes in the same order, but for how the paths of their files
    are written. -/
theorem loadDirectory_manifest (htree : tree.Lawful) {manifest : Path} {own text : String}
    {files : List String} (hplace : tree.resolve directory = .ok place)
    (hfiles : ∀ name, name ∈ files ↔ IsDefinitionFile tree directory extension name)
    (hsome : files ≠ []) (hsorted : files.Pairwise (· < ·))
    (hquotes : ∀ name ∈ files, '"' ∉ name.toList)
    (hmanifest : tree.resolve manifest = .ok (place ++ [own]))
    (htext : tree.openTextAt (place ++ [own]) = .ok text)
    (hlines : Text.lines text.toList = files.map includeLine) :
    ((∃ fault, loadDirectory tree directory extension = .error fault) ∧
      ∃ fault, loadFile tree manifest = .error fault) ∨
    ∃ r r', loadDirectory tree directory extension = .ok r ∧ loadFile tree manifest = .ok r' ∧
      List.Forall₂ (Code.SameElsewhere tree) r.codes.toList r'.codes.toList := by
  have hm : Manifest tree directory place files (place ++ [own]) :=
    manifest_of_lines htree hplace (fun name hname => (hfiles name).1 hname) hquotes htext hlines
  have hitems : (Source.directory directory extension).items tree =
      .ok (includesFrom directory files) := by
    obtain ⟨name, hname⟩ := List.exists_mem_of_ne_nil files hsome
    obtain ⟨names, hnames, _⟩ := (hfiles name).1 hname
    have hdefinitions := definitionFiles_eq htree hplace hnames hfiles hsorted
    obtain ⟨first, rest, rfl⟩ := List.exists_cons_of_ne_nil hsome
    simp [Source.items, hnames, hdefinitions, includesFrom]
  have hload : loadDirectory tree directory extension = (follow (readFile tree (tree.size + 1)) ""
      (includesFrom directory files) {}).map Loader.registry := by
    refine (Source.load_eq tree (.directory directory extension)).trans ?_
    rw [hitems]
    rfl
  -- The manifest itself is the first file that is begun.
  have hload' : loadFile tree manifest = ((follow (readFile tree tree.size) manifest
      (includesFrom place.render files) (({} : Loader).enter (place ++ [own]))).map
        ({ · with reading := [] })).map Loader.registry := by
    rw [loadFile, loadDepth, readFile_eq, hmanifest, ← hm.items, itemsAt_eq htext]
    simp [Except.mapError, Except.bind, htext]
  have hstart : Beside tree (place ++ [own]) {} (({} : Loader).enter (place ++ [own])) :=
    ⟨Tidy.empty.enter (by simp) htext, by simp [enter], by simp [enter], by simp, [], [], rfl, rfl, .nil⟩
  have hends := follow_includesFrom_ends "" manifest hm (List.nil_append files).symm hstart
    (show tree.size < tree.size + 1 by omega) (by simp)
  rw [hload, hload']
  generalize follow _ _ (includesFrom directory files) _ = outcome,
    follow _ _ (includesFrom place.render files) _ = outcome' at hends
  cases hends with
  | error => exact .inl ⟨⟨_, rfl⟩, _, rfl⟩
  | @ok done done' h =>
    obtain ⟨codes, codes', hcodes, hcodes', hsame⟩ := h.codes
    refine .inr ⟨done.registry, done'.registry, rfl, rfl, ?_⟩
    rw [hcodes, hcodes']
    exact numbered_sameElsewhere hsame

/-- A directory of two files, the first of which includes the second, and their manifest. -/
def bundle : FileTree where
  entries := [
    (["defs"], .directory),
    (["defs", "b.def"], .file "two 2 4\n".toUTF8.data),
    (["defs", "all"], .file "#include \"a.def\"\n#include \"b.def\"\n".toUTF8.data),
    (["defs", "a.def"], .file "one 1 4\n#include \"b.def\"\n".toUTF8.data)]

theorem bundle_lawful : bundle.Lawful := by decide +kernel

theorem mem_bundle_iff (name : String) :
    name ∈ ["a.def", "b.def"] ↔ IsDefinitionFile bundle "defs/" ".def" name := by
  have hlist : bundle.list "defs/" = .ok ["b.def", "all", "a.def"] := by decide +kernel
  constructor
  · intro hname
    refine ⟨_, hlist, ?_⟩
    rcases List.mem_cons.1 hname with rfl | hname
    · decide +kernel
    · obtain rfl := List.mem_singleton.1 hname
      decide +kernel
  · rintro ⟨names, hnames, hname, _, hextension⟩
    obtain rfl := Except.ok.inj (hlist.symm.trans hnames)
    have hall : ∀ name ∈ ["b.def", "all", "a.def"], Path.extension? name = some "def" →
        name ∈ ["a.def", "b.def"] := by decide +kernel
    exact hall name hname hextension

/-- The directory and its manifest give the same two codes. -/
theorem loadDirectory_manifest_bundle :
    ∃ r r', loadDirectory bundle "defs/" ".def" = .ok r ∧ loadFile bundle "defs/all" = .ok r' ∧
      List.Forall₂ (Code.SameElsewhere bundle) r.codes.toList r'.codes.toList := by
  have hok : (loadFile bundle "defs/all").toOption.isSome := by decide +kernel
  rcases loadDirectory_manifest bundle_lawful (show bundle.resolve "defs/" = .ok ["defs"] by decide +kernel)
    mem_bundle_iff (by simp) (by decide +kernel) (by decide +kernel)
    (show bundle.resolve "defs/all" = .ok (["defs"] ++ ["all"]) by decide +kernel)
    (show bundle.openTextAt (["defs"] ++ ["all"]) = .ok "#include \"a.def\"\n#include \"b.def\"\n" by
      decide +kernel) (by decide +kernel) with ⟨_, fault, herror⟩ | hsame
  · simp [herror, Except.toOption] at hok
  · exact hsame

end Registry

end CartScript
