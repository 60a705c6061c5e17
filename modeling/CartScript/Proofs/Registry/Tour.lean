import CartScript.Proofs.Files.Places
import CartScript.Proofs.Registry.Consistent
import CartScript.Proofs.Registry.Outline
import Mathlib.Data.List.Perm.Subperm
import Mathlib.Logic.Relation

/-!
# Files of definitions are read once and in order

Files of definitions may include each other in any way.  Reading them is a tour: where a file is
included for the first time the tour goes into it, a file that was begun before is passed over, and one
that is still being read ends the tour.

The tour is described twice, without a registry and without a bound on its depth: step by step, and as a
whole, as codes and files in the order in which they come.
-/

namespace CartScript

namespace Loader

variable {tree : FileTree}

/-! ## Reading one file -/

/-- The loader as it begins to read a file. -/
def enter (loader : Loader) (route : Route) : Loader :=
  { loader with reading := route :: loader.reading, begun := route :: loader.begun }

/-- Reading a file, if it was not begun before, is following its items. -/
theorem readFile_eq (tree : FileTree) (depth : Nat) (loader : Loader) (path : Path) :
    readFile tree (depth + 1) loader path =
      ((tree.resolve path).mapError (.unreadable path)).bind fun route =>
        if route ∈ loader.reading then .error (.includeCycle route.render)
        else if route ∈ loader.begun then .ok loader
        else ((tree.openTextAt route).mapError (.unreadable route.render)).bind fun text =>
          (follow (readFile tree depth) path (outline route.parent.render text)
            (loader.enter route)).map ({ · with reading := loader.reading }) := by
  rw [readFile]
  cases tree.resolve path with
  | error fault => rfl
  | ok route =>
    simp only [Except.mapError, Except.bind, List.contains_iff_mem, ← readText_eq, enter]
    cases tree.openTextAt route with
    | error fault => rfl
    | ok text =>
      dsimp only
      cases readText (readFile tree depth) ⟨loader.registry, route :: loader.reading,
        route :: loader.begun⟩ path text route.parent.render <;> rfl

/-! ## Files that are being read -/

/-- The codes of a loader and its files: those that are being read were begun, each of them once, and
    all that were begun can be read. -/
structure Tidy (tree : FileTree) (loader : Loader) : Prop where
  consistent : loader.registry.Consistent
  reading : loader.reading.Nodup
  within : ∀ route ∈ loader.reading, route ∈ loader.begun
  readable : ∀ route ∈ loader.begun, ∃ text, tree.openTextAt route = .ok text

theorem Tidy.empty : Tidy tree {} := ⟨.empty, .nil, by simp, by simp⟩

variable {loader : Loader} {route : Route} {text : String}

theorem mem_entries_of_openTextAt (h : tree.openTextAt route = .ok text) :
    route ∈ tree.entries.map Prod.fst := by
  simp only [FileTree.openTextAt, FileTree.readTextAt, FileTree.readAt] at h
  split at h
  · split at h
    · rename_i content hread
      split at hread
      · rename_i hentry
        -- The place of all places is a directory.
        have hroute : route ≠ [] := by
          rintro rfl
          simp [FileTree.entry?] at hentry
        exact List.mem_map_of_mem (FileTree.mem_entries_of_entry? hroute hentry)
      · simp at hread
      · simp at hread
    · simp at h
  · simp at h

theorem Tidy.insert (h : loader.Tidy tree) {c : Code} {registry : Registry}
    (hinsert : loader.registry.insert c = (.ok (), registry)) : Tidy tree { loader with registry } :=
  { h with consistent := h.consistent.insert hinsert }

/-- No more files are being read than there are. -/
theorem Tidy.length_reading_le (h : loader.Tidy tree) : loader.reading.length ≤ tree.size := by
  have hsub : loader.reading ⊆ tree.entries.map Prod.fst := by
    intro route hroute
    obtain ⟨text, htext⟩ := h.readable route (h.within route hroute)
    exact mem_entries_of_openTextAt htext
  -- None of them is being read twice.
  have hlength := (h.reading.subperm hsub).length_le
  rwa [List.length_map] at hlength

theorem Tidy.enter (h : loader.Tidy tree) (hreading : route ∉ loader.reading)
    (htext : tree.openTextAt route = .ok text) :
    (loader.enter route).Tidy tree where
  consistent := h.consistent
  reading := List.nodup_cons.2 ⟨hreading, h.reading⟩
  within := by
    intro other hother
    rcases List.mem_cons.1 hother with rfl | hother
    · exact .head _
    · exact .tail _ (h.within other hother)
  readable := by
    intro other hother
    rcases List.mem_cons.1 hother with rfl | hother
    · exact ⟨text, htext⟩
    · exact h.readable other hother

/-- At the end of a file those around it are still being read. -/
theorem Tidy.leave (h : loader.Tidy tree) {done : Loader} (hdone : done.Tidy tree)
    (hreading : done.reading = route :: loader.reading) :
    Tidy tree { done with reading := loader.reading } :=
  { hdone with
    reading := h.reading
    within := fun other hother => hdone.within other (hreading ▸ .tail _ hother) }

end Loader

/-! ## Registries as lists of codes -/

/-- Some game has both codes, and they have the same name. -/
def Code.Clashes (d c : Code) : Prop :=
  d.name = c.name ∧ ∃ game, d.Available game ∧ c.Available game

theorem Code.Clashes.symm {d c : Code} (h : d.Clashes c) : c.Clashes d := by
  obtain ⟨hname, game, hd, hc⟩ := h
  exact ⟨hname.symm, game, hc, hd⟩

/-- The registry of codes in the given order. -/
def Registry.numbered (codes : List Code) : Registry := codes.foldl push empty

theorem Registry.numbered_concat (codes : List Code) (c : Code) :
    numbered (codes ++ [c]) = (numbered codes).push c := by
  simp [numbered]

theorem Registry.tabled_numbered (codes : List Code) : (numbered codes).Tabled := by
  induction codes using List.reverseRecOn with
  | nil => exact Tabled.empty
  | append_singleton codes c ih =>
    rw [numbered_concat]
    exact ih.push c

theorem Registry.toList_codes_numbered (codes : List Code) :
    (numbered codes).codes.toList = codes.mapIdx fun i c => { c with index := i } := by
  induction codes using List.reverseRecOn with
  | nil => rfl
  | append_singleton codes c ih =>
    have hsize : (numbered codes).codes.size = codes.length := by
      rw [← Array.length_toList, ih, List.length_mapIdx]
    rw [numbered_concat, push, Array.toList_push, ih, hsize, List.mapIdx_concat]

theorem Registry.clashes_numbered_iff {codes : List Code} {c : Code} :
    (∃ d ∈ (numbered codes).codes, d.Clashes c) ↔ ∃ d ∈ codes, d.Clashes c := by
  simp only [← Array.mem_toList_iff, toList_codes_numbered]
  constructor
  · rintro ⟨d, hd, hclash⟩
    obtain ⟨i, hi, rfl⟩ := List.mem_mapIdx.1 hd
    exact ⟨codes[i], List.getElem_mem hi, hclash⟩
  · rintro ⟨d, hd, hclash⟩
    obtain ⟨i, hi, rfl⟩ := List.getElem_of_mem hd
    exact ⟨_, List.mem_mapIdx.2 ⟨i, hi, rfl⟩, hclash⟩

/-- A code is put behind the others, unless it clashes with one of them. -/
theorem Registry.insert_numbered (codes : List Code) (c : Code) :
    (∃ d ∈ codes, d.Clashes c) ∧
        (∃ origin, (numbered codes).insert c = (.error origin, numbered codes)) ∨
      (∀ d ∈ codes, ¬ d.Clashes c) ∧
        (numbered codes).insert c = (.ok (), numbered (codes ++ [c])) := by
  have hclash := (tabled_numbered codes).insert_error_iff (c := c)
  rcases insert_cases (numbered codes) c with h | ⟨origin, h⟩
  · right
    refine ⟨?_, by rw [h, numbered_concat]⟩
    intro d hd hdc
    obtain ⟨origin, herror⟩ := hclash.2 (clashes_numbered_iff.2 ⟨d, hd, hdc⟩)
    rw [h] at herror
    simp at herror
  · left
    exact ⟨clashes_numbered_iff.1 (hclash.1 ⟨origin, by rw [h]⟩), origin, h⟩

namespace Loader

variable {tree : FileTree}

/-! ## Tours -/

/-- A file that is being read, or what a load starts with, which is at no place. -/
structure Visit where
  route? : Option Route
  /-- How the file is called. -/
  file : String
  /-- What was not read yet. -/
  rest : List Item

/-- A tour through files. -/
structure Tour where
  /-- The files that are being read, the innermost first. -/
  opened : List Visit
  /-- The files that were ever begun. -/
  begun : List Route := []
  /-- The codes that were read. -/
  codes : List Code := []

/-- The places of files that are being read. -/
def places (opened : List Visit) : List Route := opened.filterMap Visit.route?

/-- What comes next in a tour. -/
def Tour.next? (tour : Tour) : Option Item := tour.opened.head?.bind fun visit => visit.rest.head?

/-- What comes next is an include of a file that is still being read. -/
def Tour.MeetsOpen (tree : FileTree) (tour : Tour) (route : Route) : Prop :=
  ∃ path, tour.next? = some (.includes path) ∧ tree.resolve path = .ok route ∧
    route ∈ places tour.opened

/-- One step of a tour. -/
inductive Step (tree : FileTree) : Tour → Tour → Prop
  /-- A code is taken that clashes with none before it. -/
  | code {route? : Option Route} {file : String} {line : Nat} {code : Code} {rest : List Item}
      {outer : List Visit} {begun : List Route} {codes : List Code}
      (hclash : ∀ d ∈ codes, ¬ d.Clashes code) :
      Step tree ⟨⟨route?, file, .code line code :: rest⟩ :: outer, begun, codes⟩
        ⟨⟨route?, file, rest⟩ :: outer, begun, codes ++ [code.declaredIn file line]⟩
  /-- A file that was begun before, and is not being read, is passed over. -/
  | again {route? : Option Route} {file : String} {path : Path} {rest : List Item}
      {outer : List Visit} {begun : List Route} {codes : List Code} {route : Route}
      (hroute : tree.resolve path = .ok route)
      (hplaces : route ∉ places (⟨route?, file, rest⟩ :: outer)) (hbegun : route ∈ begun) :
      Step tree ⟨⟨route?, file, .includes path :: rest⟩ :: outer, begun, codes⟩
        ⟨⟨route?, file, rest⟩ :: outer, begun, codes⟩
  /-- A file is read where it is mentioned for the first time. -/
  | first {route? : Option Route} {file : String} {path : Path} {rest : List Item}
      {outer : List Visit} {begun : List Route} {codes : List Code} {route : Route} {text : String}
      (hroute : tree.resolve path = .ok route)
      (hplaces : route ∉ places (⟨route?, file, rest⟩ :: outer)) (hbegun : route ∉ begun)
      (htext : tree.openTextAt route = .ok text) :
      Step tree ⟨⟨route?, file, .includes path :: rest⟩ :: outer, begun, codes⟩
        ⟨⟨some route, path, outline route.parent.render text⟩ :: ⟨route?, file, rest⟩ :: outer,
          route :: begun, codes⟩
  /-- At the end of a file the tour comes back to the one that includes it. -/
  | leave {route? : Option Route} {file : String} {outer : List Visit} {begun : List Route}
      {codes : List Code} : Step tree ⟨⟨route?, file, []⟩ :: outer, begun, codes⟩ ⟨outer, begun, codes⟩

/-- The tours that steps lead to. -/
abbrev Reaches (tree : FileTree) : Tour → Tour → Prop := Relation.ReflTransGen (Step tree)

/-- Why a tour cannot go on. -/
inductive Stuck (tree : FileTree) (tour : Tour) : LoadFault → Prop
  | wrong {file : String} {line : Nat} {fault : RecordFault}
      (hnext : tour.next? = some (.wrong line fault)) : Stuck tree tour (.malformed file line fault)
  | clash {file : String} {line : Nat} {code d : Code} {earlier : String}
      (hnext : tour.next? = some (.code line code)) (hd : d ∈ tour.codes) (hclash : d.Clashes code) :
      Stuck tree tour (.duplicate file line code.name earlier)
  | nowhere {path : Path} {fault : FileFault} (hnext : tour.next? = some (.includes path))
      (hroute : tree.resolve path = .error fault) : Stuck tree tour (.unreadable path fault)
  | unread {path : Path} {route : Route} {fault : FileFault}
      (hnext : tour.next? = some (.includes path)) (hroute : tree.resolve path = .ok route)
      (hplaces : route ∉ places tour.opened) (hbegun : route ∉ tour.begun)
      (htext : tree.openTextAt route = .error fault) : Stuck tree tour (.unreadable route.render fault)
  | cycle {route : Route} (h : tour.MeetsOpen tree route) :
      Stuck tree tour (.includeCycle route.render)

variable {finish : List Route → List Code → Tour} {codes : List Code}
  {U V : List Route → List Code → Prop} {loader : Loader} {outcome : Except LoadFault Loader}
  {start tour : Tour} {fault : LoadFault}

theorem Stuck.exists_next (h : Stuck tree tour fault) : ∃ item, tour.next? = some item := by
  cases h with
  | wrong hnext | clash hnext | nowhere hnext | unread hnext => exact ⟨_, hnext⟩
  | cycle hopen =>
    obtain ⟨_, hnext, _⟩ := hopen
    exact ⟨_, hnext⟩

/-- There is at most one way to go on. -/
theorem step_rightUnique (tree : FileTree) : Relator.RightUnique (Step tree) := by
  intro tour a b ha hb
  -- What comes next decides the step, but for an include; there it is decided by what was begun.
  cases ha with
  | code _ =>
    cases hb with
    | code _ => rfl
  | again hroute _ hbegun =>
    cases hb with
    | again _ _ _ => rfl
    | first hroute' _ hbegun' _ =>
      obtain rfl := Except.ok.inj (hroute.symm.trans hroute')
      exact absurd hbegun hbegun'
  | first hroute _ hbegun htext =>
    cases hb with
    | again hroute' _ hbegun' =>
      obtain rfl := Except.ok.inj (hroute.symm.trans hroute')
      exact absurd hbegun' hbegun
    | first hroute' _ _ htext' =>
      obtain rfl := Except.ok.inj (hroute.symm.trans hroute')
      obtain rfl := Except.ok.inj (htext.symm.trans htext')
      rfl
  | leave =>
    cases hb with
    | leave => rfl

/-- A tour that is stuck takes no step. -/
theorem Stuck.not_step {next : Tour} (h : Stuck tree tour fault) : ¬ Step tree tour next := by
  intro hstep
  cases hstep with
  | code hclash =>
    cases h with
    | clash hnext hd hc =>
      obtain ⟨rfl, rfl⟩ := Item.code.inj (Option.some.inj hnext)
      exact hclash _ hd hc
    | wrong hnext | nowhere hnext | unread hnext => simp [Tour.next?] at hnext
    | cycle hopen =>
      obtain ⟨_, hnext, _⟩ := hopen
      simp [Tour.next?] at hnext
  | again hroute hplaces hbegun =>
    cases h with
    | wrong hnext | clash hnext => simp [Tour.next?] at hnext
    | nowhere hnext hroute' =>
      obtain rfl := Item.includes.inj (Option.some.inj hnext)
      simp [hroute] at hroute'
    | unread hnext hroute' _ hbegun' =>
      obtain rfl := Item.includes.inj (Option.some.inj hnext)
      obtain rfl := Except.ok.inj (hroute.symm.trans hroute')
      exact hbegun' hbegun
    | cycle hopen =>
      obtain ⟨_, hnext, hroute', hplaces'⟩ := hopen
      obtain rfl := Item.includes.inj (Option.some.inj hnext)
      obtain rfl := Except.ok.inj (hroute.symm.trans hroute')
      exact hplaces hplaces'
  | first hroute hplaces _ htext =>
    cases h with
    | wrong hnext | clash hnext => simp [Tour.next?] at hnext
    | nowhere hnext hroute' =>
      obtain rfl := Item.includes.inj (Option.some.inj hnext)
      simp [hroute] at hroute'
    | unread hnext hroute' _ _ htext' =>
      obtain rfl := Item.includes.inj (Option.some.inj hnext)
      obtain rfl := Except.ok.inj (hroute.symm.trans hroute')
      simp [htext] at htext'
    | cycle hopen =>
      obtain ⟨_, hnext, hroute', hplaces'⟩ := hopen
      obtain rfl := Item.includes.inj (Option.some.inj hnext)
      obtain rfl := Except.ok.inj (hroute.symm.trans hroute')
      exact hplaces hplaces'
  | leave =>
    obtain ⟨_, hnext⟩ := h.exists_next
    simp [Tour.next?] at hnext

/-- Tours from one start that both take no step end alike. -/
theorem Reaches.unique {a b : Tour} (ha : Reaches tree start a) (hb : Reaches tree start b)
    (haend : ∀ next, ¬ Step tree a next) (hbend : ∀ next, ¬ Step tree b next) : a = b := by
  have hend {c d : Tour} (h : Reaches tree c d) (hc : ∀ next, ¬ Step tree c next) : c = d := by
    rcases h.cases_head with heq | ⟨next, hstep, _⟩
    · exact heq
    · exact absurd hstep (hc next)
  -- One of the two tours goes on from the end of the other.
  rcases Relation.ReflTransGen.total_of_right_unique (step_rightUnique tree) ha hb with h | h
  · exact hend h haend
  · exact (hend h hbend).symm

/-! ## Codes and files in order -/

/-- The items of a file, followed after the files `seen` were begun: which files were begun then, and
    the codes in order.  A file is put in place of its first mention, and its other mentions stand for
    nothing. -/
inductive Unfolds (tree : FileTree) :
    String → (seen : List Route) → List Item → (seen' : List Route) → List Code → Prop
  | nil {file : String} {seen : List Route} : Unfolds tree file seen [] seen []
  | code {file : String} {seen seen' : List Route} {line : Nat} {code : Code} {items : List Item}
      {codes : List Code} (h : Unfolds tree file seen items seen' codes) :
      Unfolds tree file seen (.code line code :: items) seen' (code.declaredIn file line :: codes)
  | again {file : String} {seen seen' : List Route} {path : Path} {route : Route} {items : List Item}
      {codes : List Code} (hroute : tree.resolve path = .ok route) (hseen : route ∈ seen)
      (h : Unfolds tree file seen items seen' codes) :
      Unfolds tree file seen (.includes path :: items) seen' codes
  | first {file : String} {seen seen' seen'' : List Route} {path : Path} {route : Route}
      {text : String} {items : List Item} {codes codes' : List Code}
      (hroute : tree.resolve path = .ok route) (hseen : route ∉ seen)
      (htext : tree.openTextAt route = .ok text)
      (hinner : Unfolds tree path (route :: seen) (outline route.parent.render text) seen' codes)
      (h : Unfolds tree file seen' items seen'' codes') :
      Unfolds tree file seen (.includes path :: items) seen'' (codes ++ codes')

/-! ## A loader goes along with the tour -/

/-- The outcome of a loader that starts where a tour starts.  A success ends where the tour ends, with
    new codes; a failure is where the tour is stuck. -/
def Tracks (tree : FileTree) (loader : Loader) (codes : List Code) (start : Tour)
    (finish : List Route → List Code → Tour) (Unfolding : List Route → List Code → Prop) :
    Except LoadFault Loader → Prop
  | .ok done => done.Tidy tree ∧ done.reading = loader.reading ∧
      ∃ new, done.registry = .numbered (codes ++ new) ∧
        Reaches tree start (finish done.begun (codes ++ new)) ∧ Unfolding done.begun new
  | .error fault => ∃ tour, Reaches tree start tour ∧ Stuck tree tour fault

theorem Tracks.imp (h : Tracks tree loader codes start finish U outcome)
    (hUV : ∀ begun new, U begun new → V begun new) :
    Tracks tree loader codes start finish V outcome := by
  cases outcome with
  | error fault => exact h
  | ok done =>
    obtain ⟨htidy, hreading, new, hregistry, hreaches, hunfolds⟩ := h
    exact ⟨htidy, hreading, new, hregistry, hreaches, hUV _ _ hunfolds⟩

/-- One part of a tour after another. -/
theorem Tracks.bind {middle : List Route → List Code → Tour}
    {next : Loader → Except LoadFault Loader} (h : Tracks tree loader codes start middle U outcome)
    (hnext : ∀ done new, done.Tidy tree → done.reading = loader.reading →
      done.registry = .numbered (codes ++ new) → U done.begun new →
      Tracks tree done (codes ++ new) (middle done.begun (codes ++ new)) finish
        (fun begun new' => V begun (new ++ new')) (next done)) :
    Tracks tree loader codes start finish V (outcome.bind next) := by
  cases outcome with
  | error fault => exact h
  | ok done =>
    obtain ⟨htidy, hreading, new, hregistry, hreaches, hunfolds⟩ := h
    have hrest := hnext done new htidy hreading hregistry hunfolds
    show Tracks tree loader codes start finish V (next done)
    cases hlast : next done with
    | ok last =>
      rw [hlast] at hrest
      obtain ⟨htidy', hreading', new', hregistry', hreaches', hunfolds'⟩ := hrest
      rw [List.append_assoc] at hregistry' hreaches'
      exact ⟨htidy', hreading'.trans hreading, new ++ new', hregistry', hreaches.trans hreaches', hunfolds'⟩
    | error fault =>
      rw [hlast] at hrest
      obtain ⟨tour, hreaches', hstuck⟩ := hrest
      exact ⟨tour, hreaches.trans hreaches', hstuck⟩

/-- What reading a file must do beside a tour, if the files that can be nested within those that are
    being read are more than there are. -/
def ReadFile.Tracks (tree : FileTree) (depth : Nat) (read : ReadFile) : Prop :=
  ∀ loader codes path route? file rest outer, loader.Tidy tree →
    tree.size < depth + loader.reading.length → loader.registry = .numbered codes →
    loader.reading = places (⟨route?, file, rest⟩ :: outer) →
    Loader.Tracks tree loader codes ⟨⟨route?, file, .includes path :: rest⟩ :: outer, loader.begun, codes⟩
      (fun begun codes => ⟨⟨route?, file, rest⟩ :: outer, begun, codes⟩)
      (fun begun new => ∀ items begun' codes', Unfolds tree file begun items begun' codes' →
        Unfolds tree file loader.begun (.includes path :: items) begun' (new ++ codes'))
      (read loader path)

theorem follow_tracks {depth : Nat} {read : ReadFile} (hread : read.Tracks tree depth)
    (items : List Item) {route? : Option Route} {file : String} {outer : List Visit}
    (htidy : loader.Tidy tree) (hdepth : tree.size < depth + loader.reading.length)
    (hregistry : loader.registry = .numbered codes)
    (hreading : loader.reading = places (⟨route?, file, items⟩ :: outer)) :
    Tracks tree loader codes ⟨⟨route?, file, items⟩ :: outer, loader.begun, codes⟩
      (fun begun codes => ⟨⟨route?, file, []⟩ :: outer, begun, codes⟩)
      (Unfolds tree file loader.begun items) (follow read file items loader) := by
  induction items generalizing loader codes with
  | nil => exact ⟨htidy, rfl, [], by rw [hregistry, List.append_nil], by rw [List.append_nil], .nil⟩
  | cons item items ih =>
    cases item with
    | code line code =>
      rw [follow, hregistry]
      rcases Registry.insert_numbered codes (code.declaredIn file line) with
        ⟨⟨d, hd, hclash⟩, earlier, hinsert⟩ | ⟨hapart, hinsert⟩
      · rw [hinsert]
        exact ⟨_, .refl, .clash rfl hd hclash⟩
      · rw [hinsert]
        -- Taking the code is a tour of one step, and the other items follow.
        have hfirst : Tracks tree loader codes
            ⟨⟨route?, file, .code line code :: items⟩ :: outer, loader.begun, codes⟩
            (fun begun codes => ⟨⟨route?, file, items⟩ :: outer, begun, codes⟩)
            (fun begun new => begun = loader.begun ∧ new = [code.declaredIn file line])
            (.ok { loader with registry := .numbered (codes ++ [code.declaredIn file line]) }) :=
          ⟨htidy.insert (hregistry ▸ hinsert), rfl, _, rfl, .single (.code hapart), rfl, rfl⟩
        refine Tracks.bind hfirst ?_
        rintro done new hnext hdone hnew ⟨hbegun, rfl⟩
        refine (ih hnext (hdone ▸ hdepth) hnew (hdone.trans hreading)).imp fun begun new' h => ?_
        rw [hbegun] at h
        exact .code h
    | includes path =>
      have hsplit : follow read file (.includes path :: items) loader =
          (read loader path).bind (follow read file items) := by
        rw [follow]
        cases read loader path <;> rfl
      rw [hsplit]
      refine (hread loader codes path route? file items outer htidy hdepth hregistry hreading).bind ?_
      intro done new hnext hdone hnew hunfolds
      exact (ih hnext (hdone ▸ hdepth) hnew (hdone.trans hreading)).imp fun begun new' h =>
        hunfolds items begun new' h
    | wrong line fault => exact ⟨_, .refl, .wrong rfl⟩

/-- A loader that reads a file goes along with the tour. -/
theorem readFile_tracks (tree : FileTree) (depth : Nat) :
    ReadFile.Tracks tree depth (readFile tree depth) := by
  induction depth with
  | zero =>
    intro loader codes path route? file rest outer htidy hdepth _ _
    have hle := htidy.length_reading_le
    omega
  | succ depth ih =>
    intro loader codes path route? file rest outer htidy hdepth hregistry hreading
    rw [readFile_eq]
    cases hroute : tree.resolve path with
    | error fault => exact ⟨_, .refl, .nowhere rfl hroute⟩
    | ok route =>
      simp only [Except.mapError, Except.bind]
      split
      · rename_i hopen
        exact ⟨_, .refl, .cycle ⟨path, rfl, hroute, hreading ▸ hopen⟩⟩
      rename_i hopen
      split
      · rename_i hbegun
        refine ⟨htidy, rfl, [], by rw [hregistry, List.append_nil], ?_, ?_⟩
        · rw [List.append_nil]
          exact .single (.again hroute (hreading ▸ hopen) hbegun)
        · exact fun items begun' codes' h => .again hroute hbegun h
      rename_i hbegun
      cases htext : tree.openTextAt route with
      | error fault => exact ⟨_, .refl, .unread rfl hroute (hreading ▸ hopen) hbegun htext⟩
      | ok text =>
        dsimp only
        -- The tour goes into the file, through its items, and comes back at its end.
        have hentered : (loader.enter route).reading =
            places (⟨some route, path, outline route.parent.render text⟩ :: ⟨route?, file, rest⟩ :: outer) := by
          rw [enter, hreading]
          rfl
        have hinner := follow_tracks ih (outline route.parent.render text)
          (htidy.enter hopen htext) (by rw [enter, List.length_cons]; omega)
          (show (loader.enter route).registry = .numbered codes from hregistry) hentered
        have henter : Step tree ⟨⟨route?, file, .includes path :: rest⟩ :: outer, loader.begun, codes⟩
            ⟨⟨some route, path, outline route.parent.render text⟩ :: ⟨route?, file, rest⟩ :: outer,
              route :: loader.begun, codes⟩ := .first hroute (hreading ▸ hopen) hbegun htext
        cases hfollow : follow (readFile tree depth) path (outline route.parent.render text)
            (loader.enter route) with
        | error fault =>
          rw [hfollow] at hinner
          obtain ⟨tour, hreaches, hstuck⟩ := hinner
          exact ⟨tour, .head henter hreaches, hstuck⟩
        | ok done =>
          rw [hfollow] at hinner
          obtain ⟨hdone, hinside, new, hnew, hreaches, hunfolds⟩ := hinner
          refine ⟨htidy.leave hdone hinside, rfl, new, hnew, ?_, ?_⟩
          · exact .head henter (hreaches.tail .leave)
          · exact fun items begun' codes' h => .first hroute hbegun htext hunfolds h

end Loader

end CartScript
