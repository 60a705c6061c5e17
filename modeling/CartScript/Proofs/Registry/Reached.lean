import CartScript.Proofs.Registry.Tour
import Mathlib.Data.List.Flatten

/-!
# Which definitions a load gives

A load starts with a text, with a file, or with the files of a directory, and goes through all files
that these include, directly or not.  If nothing is wrong with them and no file is included while it
is being read, the registry holds the codes of all these files, those of each file once.
-/

namespace CartScript

/-- The code apart from where it stands. -/
def Code.bare (c : Code) : Code := { c with origin := "", index := 0 }

theorem Code.clashes_bare_iff {d c : Code} : d.bare.Clashes c.bare ↔ d.Clashes c := Iff.rfl

namespace Loader

variable {tree : FileTree} {start : List Item}

/-! ## The files that are mentioned -/

/-- The items of the file at a place. -/
def itemsAt (tree : FileTree) (route : Route) : List Item :=
  match tree.openTextAt route with
  | .ok text => outline route.parent.render text
  | .error _ => []

theorem itemsAt_eq {route : Route} {text : String} (h : tree.openTextAt route = .ok text) :
    itemsAt tree route = outline route.parent.render text := by
  rw [itemsAt, h]

/-- The files that items include, directly or through other files. -/
inductive Mentioned (tree : FileTree) (start : List Item) : Route → Prop
  | start {path : Path} {route : Route} (h : .includes path ∈ start)
      (hroute : tree.resolve path = .ok route) : Mentioned tree start route
  | through {path : Path} {outer route : Route} (houter : Mentioned tree start outer)
      (h : .includes path ∈ itemsAt tree outer) (hroute : tree.resolve path = .ok route) :
      Mentioned tree start route

/-- The codes among items, apart from where they stand. -/
def codesOf (items : List Item) : List Code :=
  items.filterMap fun
    | .code _ code => some code.bare
    | _ => none

@[simp]
theorem codesOf_code (line : Nat) (code : Code) (items : List Item) :
    codesOf (.code line code :: items) = code.bare :: codesOf items := rfl

/-- Nothing is wrong with the items and the files that they mention. -/
structure Valid (tree : FileTree) (start : List Item) : Prop where
  readable : ∀ route, Mentioned tree start route → ∃ text, tree.openTextAt route = .ok text
  right : ∀ item, (item ∈ start ∨ ∃ route, Mentioned tree start route ∧ item ∈ itemsAt tree route) →
    ∀ line fault, item ≠ .wrong line fault
  found : ∀ path, (.includes path ∈ start ∨
      ∃ route, Mentioned tree start route ∧ .includes path ∈ itemsAt tree route) →
    ∃ route, tree.resolve path = .ok route

/-- No two codes of the items and of the files that they mention clash. -/
def Unique (tree : FileTree) (start : List Item) : Prop :=
  ∀ files : List Route, files.Nodup → (∀ route ∈ files, Mentioned tree start route) →
    (codesOf start ++ files.flatMap fun route => codesOf (itemsAt tree route)).Pairwise
      fun d c => ¬ d.Clashes c

/-- An include that leads to one of the files, or a code. -/
def Item.leadsInto (tree : FileTree) (files : List Route) : Item → Bool
  | .code _ _ => true
  | .includes path =>
    match tree.resolve path with
    | .ok route => files.contains route
    | .error _ => false
  | .wrong _ _ => false

/-- Whether the files can be read, and the items and the files mention no others. -/
def covers (tree : FileTree) (start : List Item) (files : List Route) : Bool :=
  start.all (·.leadsInto tree files) &&
    files.all fun route => (tree.openTextAt route).toOption.isSome &&
      (itemsAt tree route).all (·.leadsInto tree files)

section Covers

variable {files : List Route}

theorem leadsInto_includes_iff {path : Path} : (Item.includes path).leadsInto tree files ↔
    ∃ route ∈ files, tree.resolve path = .ok route := by
  rw [Item.leadsInto]
  cases tree.resolve path with
  | error fault | ok route => simp

theorem leadsInto_of_covers (h : covers tree start files) {item : Item} (hitem : item ∈ start ∨
    ∃ route ∈ files, item ∈ itemsAt tree route) : item.leadsInto tree files := by
  simp only [covers, Bool.and_eq_true, List.all_eq_true] at h
  rcases hitem with hitem | ⟨route, hroute, hitem⟩
  · exact h.1 item hitem
  · exact (h.2 route hroute).2 item hitem

theorem Mentioned.mem_of_covers {route : Route} (hmentioned : Mentioned tree start route)
    (h : covers tree start files) : route ∈ files := by
  have hleads {path : Path} {route : Route} (hroute : tree.resolve path = .ok route)
      (hpath : (Item.includes path).leadsInto tree files) : route ∈ files := by
    obtain ⟨other, hother, heq⟩ := leadsInto_includes_iff.1 hpath
    obtain rfl := Except.ok.inj (hroute.symm.trans heq)
    exact hother
  induction hmentioned with
  | start hpath hroute => exact hleads hroute (leadsInto_of_covers h (.inl hpath))
  | through _ hpath hroute ih => exact hleads hroute (leadsInto_of_covers h (.inr ⟨_, ih, hpath⟩))

/-- Files that are covered are valid. -/
theorem Valid.of_covers (h : covers tree start files) : Valid tree start := by
  have hitems {item : Item} (hitem : item ∈ start ∨ ∃ route, Mentioned tree start route ∧
      item ∈ itemsAt tree route) : item.leadsInto tree files := by
    refine leadsInto_of_covers h (hitem.imp_right ?_)
    rintro ⟨route, hroute, hitem⟩
    exact ⟨route, hroute.mem_of_covers h, hitem⟩
  refine ⟨?_, ?_, ?_⟩
  · intro route hroute
    have hmem := hroute.mem_of_covers h
    simp only [covers, Bool.and_eq_true, List.all_eq_true] at h
    have hread := (h.2 route hmem).1
    cases htext : tree.openTextAt route with
    | ok text => exact ⟨text, rfl⟩
    | error fault => simp [htext, Except.toOption] at hread
  · rintro item hitem line fault rfl
    exact absurd (hitems hitem) (by simp [Item.leadsInto])
  · intro path hpath
    obtain ⟨route, _, hroute⟩ := leadsInto_includes_iff.1 (hitems hpath)
    exact ⟨route, hroute⟩

/-- Codes of different names are unique. -/
theorem Unique.of_covers (h : covers tree start files)
    (hnames : (codesOf start ++ files.flatMap fun route => codesOf (itemsAt tree route)).Pairwise
      fun d c => d.name ≠ c.name) : Unique tree start := by
  intro some hsome hmentioned
  -- The files in question are some of the given ones, in another order.
  obtain ⟨part, hperm, hpart⟩ :=
    hsome.subperm fun route hroute => (hmentioned route hroute).mem_of_covers h
  have hcodes := hnames.sublist ((hpart.flatMap fun route =>
    codesOf (itemsAt tree route)).append_left _)
  have hall := ((hperm.flatMap_right fun route => codesOf (itemsAt tree route)).append_left
    (codesOf start)).pairwise hcodes Ne.symm
  exact hall.imp fun hname hclash => hname hclash.1

end Covers

/-! ## What a tour has read and what it has not -/

namespace Tour

/-- An item of the start or of a file that was begun. -/
def Holds (tree : FileTree) (start : List Item) (begun : List Route) (item : Item) : Prop :=
  item ∈ start ∨ ∃ route ∈ begun, item ∈ itemsAt tree route

variable {tour : Tour} {begun : List Route} {item : Item}

theorem Holds.cons (h : Holds tree start begun item) (route : Route) :
    Holds tree start (route :: begun) item := by
  rcases h with h | ⟨other, hother, h⟩
  · exact .inl h
  · exact .inr ⟨other, .tail _ hother, h⟩

/-- The codes that were not read yet. -/
def unread (opened : List Visit) : List Code := opened.flatMap fun visit => codesOf visit.rest

/-- The codes of the start and of files. -/
def allCodes (tree : FileTree) (start : List Item) (files : List Route) : List Code :=
  codesOf start ++ files.flatMap fun route => codesOf (itemsAt tree route)

/-- The invariant of a tour. -/
structure Sound (tree : FileTree) (start : List Item) (tour : Tour) : Prop where
  begun : tour.begun.Nodup
  mentioned : ∀ route ∈ tour.begun, Mentioned tree start route
  rests : ∀ visit ∈ tour.opened, ∀ item ∈ visit.rest, Holds tree start tour.begun item
  /-- The files that are included were begun, unless the include was not read yet. -/
  closed : ∀ path, Holds tree start tour.begun (.includes path) →
    (∃ route ∈ tour.begun, tree.resolve path = .ok route) ∨
      ∃ visit ∈ tour.opened, .includes path ∈ visit.rest
  /-- The codes of the start and of the files that were begun were read or were not read yet. -/
  codes : (tour.codes.map Code.bare ++ unread tour.opened).Perm (allCodes tree start tour.begun)

theorem Sound.initial (tree : FileTree) (start : List Item) (file : String) :
    Sound tree start ⟨[⟨none, file, start⟩], [], []⟩ where
  begun := .nil
  mentioned := by simp
  rests := by
    intro visit hvisit item hitem
    obtain rfl := List.mem_singleton.1 hvisit
    exact .inl hitem
  closed := by
    rintro path (hpath | ⟨route, hroute, _⟩)
    · exact .inr ⟨_, List.mem_singleton_self _, hpath⟩
    · simp at hroute
  codes := by simp [unread, allCodes]

/-- A file that is included by an item of the tour is mentioned. -/
theorem Sound.mentioned_of_holds (h : Sound tree start tour) {path : Path} {route : Route}
    (hpath : Holds tree start tour.begun (.includes path)) (hroute : tree.resolve path = .ok route) :
    Mentioned tree start route := by
  rcases hpath with hpath | ⟨outer, houter, hpath⟩
  · exact .start hpath hroute
  · exact .through (h.mentioned outer houter) hpath hroute

section

variable {route? : Option Route} {file : String} {item : Item} {rest : List Item}
  {outer : List Visit} {begun : List Route} {codes : List Code}

theorem Sound.rests_tail
    (h : Sound tree start ⟨⟨route?, file, item :: rest⟩ :: outer, begun, codes⟩) :
    ∀ visit ∈ (⟨route?, file, rest⟩ : Visit) :: outer, ∀ other ∈ visit.rest,
      Holds tree start begun other := by
  intro visit hvisit other hother
  rcases List.mem_cons.1 hvisit with rfl | hvisit
  · exact h.rests _ (.head _) other (.tail _ hother)
  · exact h.rests visit (.tail _ hvisit) other hother

theorem Sound.closed_tail
    (h : Sound tree start ⟨⟨route?, file, item :: rest⟩ :: outer, begun, codes⟩) {path : Path}
    (hpath : Holds tree start begun (.includes path)) :
    item = .includes path ∨ (∃ route ∈ begun, tree.resolve path = .ok route) ∨
      ∃ visit ∈ (⟨route?, file, rest⟩ : Visit) :: outer, .includes path ∈ visit.rest := by
  rcases h.closed path hpath with hbegun | ⟨visit, hvisit, hrest⟩
  · exact .inr (.inl hbegun)
  · rcases List.mem_cons.1 hvisit with rfl | hvisit
    · rcases List.mem_cons.1 hrest with heq | hrest
      · exact .inl heq.symm
      · exact .inr (.inr ⟨_, .head _, hrest⟩)
    · exact .inr (.inr ⟨visit, .tail _ hvisit, hrest⟩)

end

/-- A step of the tour keeps `Sound`. -/
theorem Sound.step {next : Tour} (h : Sound tree start tour) (hstep : Step tree tour next) :
    Sound tree start next := by
  cases hstep with
  | @code route? file line code rest outer begun codes hclash =>
    refine ⟨h.begun, h.mentioned, h.rests_tail, ?_, ?_⟩
    · intro path hpath
      exact (h.closed_tail hpath).resolve_left (by simp)
    · simpa [unread, Code.declaredIn, Code.bare] using h.codes
  | @again route? file path rest outer begun codes route hroute _ hbegun =>
    refine ⟨h.begun, h.mentioned, h.rests_tail, ?_, h.codes⟩
    intro other hother
    rcases h.closed_tail hother with heq | hclosed
    · obtain rfl := Item.includes.inj heq
      exact .inl ⟨route, hbegun, hroute⟩
    · exact hclosed
  | @first route? file path rest outer begun codes route text hroute _ hbegun htext =>
    have hitems := itemsAt_eq htext
    have hinclude : Holds tree start begun (.includes path) :=
      h.rests _ (.head _) _ (.head _)
    refine ⟨List.nodup_cons.2 ⟨hbegun, h.begun⟩, ?_, ?_, ?_, ?_⟩
    · intro other hother
      rcases List.mem_cons.1 hother with rfl | hother
      · exact h.mentioned_of_holds hinclude hroute
      · exact h.mentioned other hother
    · intro visit hvisit other hother
      rcases List.mem_cons.1 hvisit with rfl | hvisit
      · exact .inr ⟨route, .head _, hitems ▸ hother⟩
      · exact (h.rests_tail visit hvisit other hother).cons route
    · -- An include of the new file is still to be read; any other one was there before.
      intro other hother
      by_cases hnew : .includes other ∈ itemsAt tree route
      · exact .inr ⟨_, .head _, hitems ▸ hnew⟩
      · have hold : Holds tree start begun (.includes other) := by
          rcases hother with hother | ⟨place, hplace, hother⟩
          · exact .inl hother
          · rcases List.mem_cons.1 hplace with rfl | hplace
            · exact absurd hother hnew
            · exact .inr ⟨place, hplace, hother⟩
        rcases h.closed_tail hold with heq | ⟨place, hplace, hroute'⟩ | ⟨visit, hvisit, hrest⟩
        · obtain rfl := Item.includes.inj heq
          exact .inl ⟨route, .head _, hroute⟩
        · exact .inl ⟨place, .tail _ hplace, hroute'⟩
        · exact .inr ⟨visit, .tail _ hvisit, hrest⟩
    · -- The codes of the new file come to both sides.
      have hcodes : (codes.map Code.bare ++ unread (⟨route?, file, rest⟩ :: outer)).Perm
          (allCodes tree start begun) := h.codes
      have hnew : unread (⟨some route, path, outline route.parent.render text⟩ ::
          ⟨route?, file, rest⟩ :: outer) =
          codesOf (itemsAt tree route) ++ unread (⟨route?, file, rest⟩ :: outer) := by
        rw [hitems]
        rfl
      show (codes.map Code.bare ++ unread (⟨some route, path, outline route.parent.render text⟩ ::
        ⟨route?, file, rest⟩ :: outer)).Perm (allCodes tree start (route :: begun))
      rw [hnew, allCodes, List.flatMap_cons]
      refine (List.perm_append_comm_assoc _ _ _).trans (List.Perm.trans ?_
        (List.perm_append_comm_assoc _ _ _))
      exact hcodes.append_left _
  | @leave route? file outer begun codes =>
    refine ⟨h.begun, h.mentioned, ?_, ?_, h.codes⟩
    · exact fun visit hvisit => h.rests visit (.tail _ hvisit)
    · intro path hpath
      rcases h.closed path hpath with hbegun | ⟨visit, hvisit, hrest⟩
      · exact .inl hbegun
      · rcases List.mem_cons.1 hvisit with rfl | hvisit
        · simp at hrest
        · exact .inr ⟨visit, hvisit, hrest⟩

theorem Sound.reaches {next : Tour} (h : Sound tree start tour) (hreaches : Reaches tree tour next) :
    Sound tree start next := by
  induction hreaches with
  | refl => exact h
  | tail _ hstep ih => exact ih.step hstep

/-- What comes next is an item of the start or of a file that is mentioned. -/
theorem Sound.next (h : Sound tree start tour) (hnext : tour.next? = some item) :
    Holds tree start tour.begun item ∧
      (item ∈ start ∨ ∃ route, Mentioned tree start route ∧ item ∈ itemsAt tree route) := by
  obtain ⟨visit, hvisit, hitem⟩ := Option.bind_eq_some_iff.1 hnext
  have hholds := h.rests visit (List.mem_of_mem_head? hvisit) item (List.mem_of_mem_head? hitem)
  refine ⟨hholds, ?_⟩
  rcases hholds with hstart | ⟨route, hroute, hitem⟩
  · exact .inl hstart
  · exact .inr ⟨route, h.mentioned route hroute, hitem⟩

/-- At the end the files that were begun are those that are mentioned. -/
theorem Sound.mem_begun_iff {codes : List Code} (h : Sound tree start ⟨[], begun, codes⟩)
    (route : Route) : route ∈ begun ↔ Mentioned tree start route := by
  have hclosed {path : Path} {route : Route} (hpath : Holds tree start begun (.includes path))
      (hroute : tree.resolve path = .ok route) : route ∈ begun := by
    rcases h.closed path hpath with ⟨other, hother, heq⟩ | ⟨_, hvisit, _⟩
    · obtain rfl := Except.ok.inj (hroute.symm.trans heq)
      exact hother
    · simp at hvisit
  refine ⟨h.mentioned route, ?_⟩
  intro hmentioned
  -- By induction on how the file is mentioned: no include is left unread.
  induction hmentioned with
  | start hpath hroute => exact hclosed (.inl hpath) hroute
  | through _ hpath hroute ih => exact hclosed (.inr ⟨_, ih, hpath⟩) hroute

/-- A tour through valid files with unique codes is stuck only where a file is still being read. -/
theorem Sound.not_stuck {fault : LoadFault} (h : Sound tree start tour) (hvalid : Valid tree start)
    (hunique : Unique tree start) (hstuck : Stuck tree tour fault) :
    ∃ path, fault = .includeCycle path := by
  cases hstuck with
  | wrong hnext => exact absurd rfl (hvalid.right _ (h.next hnext).2 _ _)
  | @clash file line code d earlier hnext hd hclash =>
    -- The code is yet to be read, and the one that it clashes with was read: both are codes of the
    -- files that were begun.
    have hpairs := hunique tour.begun h.begun h.mentioned
    have hall := (List.Perm.pairwise_iff (fun h h' => h h'.symm) h.codes).2 hpairs
    obtain ⟨visit, hvisit, hitem⟩ := Option.bind_eq_some_iff.1 hnext
    have hcode : code.bare ∈ unread tour.opened :=
      List.mem_flatMap.2 ⟨visit, List.mem_of_mem_head? hvisit,
        List.mem_filterMap.2 ⟨_, List.mem_of_mem_head? hitem, rfl⟩⟩
    have hapart := (List.pairwise_append.1 hall).2.2 d.bare (List.mem_map_of_mem hd) code.bare hcode
    exact absurd (Code.clashes_bare_iff.2 hclash) hapart
  | nowhere hnext hroute =>
    obtain ⟨route, hfound⟩ := hvalid.found _ (h.next hnext).2
    simp [hroute] at hfound
  | unread hnext hroute _ _ htext =>
    obtain ⟨text, hread⟩ :=
      hvalid.readable _ (h.mentioned_of_holds (h.next hnext).1 hroute)
    simp [htext] at hread
  | cycle hopen => exact ⟨_, rfl⟩

end Tour

/-! ## Loads -/

/-- Where a tour meets a file that is being read, it is stuck for no other reason. -/
theorem Stuck.eq_includeCycle {tour : Tour} {fault : LoadFault} {route : Route}
    (h : Stuck tree tour fault) (hopen : tour.MeetsOpen tree route) :
    fault = .includeCycle route.render := by
  obtain ⟨path, hpath, hroute, hplace⟩ := hopen
  cases h with
  | wrong hnext | clash hnext => simp [hpath] at hnext
  | nowhere hnext hnone =>
    obtain rfl := Item.includes.inj (Option.some.inj (hpath.symm.trans hnext))
    simp [hroute] at hnone
  | unread hnext hroute' hplaces =>
    obtain rfl := Item.includes.inj (Option.some.inj (hpath.symm.trans hnext))
    obtain rfl := Except.ok.inj (hroute.symm.trans hroute')
    exact absurd hplace hplaces
  | cycle hother =>
    obtain ⟨_, hnext, hroute', _⟩ := hother
    obtain rfl := Item.includes.inj (Option.some.inj (hpath.symm.trans hnext))
    obtain rfl := Except.ok.inj (hroute.symm.trans hroute')
    rfl

/-- What a load starts with. -/
inductive Source where
  | text (name content : String)
  | file (path : Path)
  | directory (path : Path) (extension : String)

namespace Source

/-- The registry that is loaded. -/
def load (tree : FileTree) : Source → Except LoadFault Registry
  | .text name content => Registry.loadText tree name content
  | .file path => Registry.loadFile tree path
  | .directory path extension => Registry.loadDirectory tree path extension

/-- How the start is called in the origins of its codes. -/
def called : Source → String
  | .text name _ => name
  | _ => ""

/-- The items that are followed: those of the text, or includes of the files. -/
def items (tree : FileTree) : Source → Except LoadFault (List Item)
  | .text _ content => .ok (outline "." content)
  | .file path => .ok [.includes path]
  | .directory path extension =>
    match tree.list path with
    | .error fault => .error (.unreadable path fault)
    | .ok names =>
      match Registry.definitionFiles tree path extension names with
      | [] => .error (.noFiles path)
      | paths => .ok (paths.map .includes)

/-- The tours that a load comes to. -/
def Reaches (tree : FileTree) (source : Source) (tour : Tour) : Prop :=
  ∃ items, source.items tree = .ok items ∧
    Loader.Reaches tree ⟨[⟨none, source.called, items⟩], [], []⟩ tour

theorem follow_includes (read : ReadFile) (file : String) (paths : List Path) (loader : Loader) :
    follow read file (paths.map .includes) loader = paths.foldlM read loader := by
  induction paths generalizing loader with
  | nil => rfl
  | cons path paths ih =>
    rw [List.map_cons, follow, List.foldlM_cons]
    cases read loader path with
    | error fault => rfl
    | ok next => exact ih next

/-- A load follows its items. -/
theorem load_eq (tree : FileTree) (source : Source) :
    source.load tree = (source.items tree).bind fun items =>
      (follow (readFile tree (Registry.loadDepth tree)) source.called items {}).map
        Loader.registry := by
  cases source with
  | text name content => exact congrArg (Except.map Loader.registry) (readText_eq ..)
  | file path =>
    show (readFile tree (Registry.loadDepth tree) {} path).map Loader.registry =
      (follow (readFile tree (Registry.loadDepth tree)) "" ([path].map .includes) {}).map
        Loader.registry
    rw [follow_includes, List.foldlM_cons]
    cases readFile tree (Registry.loadDepth tree) {} path <;> rfl
  | directory path extension =>
    rw [load, Registry.loadDirectory, items]
    cases tree.list path with
    | error fault => rfl
    | ok names =>
      cases hpaths : Registry.definitionFiles tree path extension names with
      | nil => simp [hpaths, Except.bind]
      | cons first paths =>
        simp only [hpaths, Except.bind]
        rw [follow_includes]

theorem items_ne_error (tree : FileTree) (source : Source) (path : Path) :
    source.items tree ≠ .error (.tooDeep path) ∧ source.items tree ≠ .error (.includeCycle path) := by
  cases source with
  | text name content | file path => simp [items]
  | directory path extension =>
    rw [items]
    split
    · simp
    · split <;> simp

variable {source : Source} {items : List Item} {fault : LoadFault}

/-- A load goes along with its tour to the end, or to where the tour is stuck. -/
theorem load_cases (hitems : source.items tree = .ok items) :
    (∃ files codes, source.load tree = .ok (.numbered codes) ∧
      source.Reaches tree ⟨[], files, codes⟩ ∧ Unfolds tree source.called [] items files codes ∧
      (Registry.numbered codes).Consistent) ∨
    ∃ fault tour, source.load tree = .error fault ∧ (∀ path, fault ≠ .tooDeep path) ∧
      source.Reaches tree tour ∧ Stuck tree tour fault := by
  have htracks := follow_tracks (readFile_tracks tree (Registry.loadDepth tree)) items Tidy.empty
    (by simp [Registry.loadDepth])
    (show ({} : Loader).registry = .numbered [] from rfl)
    (show ({} : Loader).reading = places [⟨none, source.called, items⟩] from rfl)
  have hload := load_eq tree source
  rw [hitems] at hload
  cases hfollow : follow (readFile tree (Registry.loadDepth tree)) source.called items {} with
  | ok done =>
    rw [hfollow] at htracks
    obtain ⟨htidy, _, codes, hregistry, hreaches, hunfolds⟩ := htracks
    -- The last step leaves the items that the load started with.
    refine .inl ⟨done.begun, codes, ?_, ⟨items, hitems, hreaches.tail .leave⟩, hunfolds,
      hregistry ▸ htidy.consistent⟩
    rw [hload, show codes = [] ++ codes from rfl, ← hregistry]
    simp [Except.bind, hfollow, Except.map]
  | error fault =>
    rw [hfollow] at htracks
    obtain ⟨tour, hreaches, hstuck⟩ := htracks
    refine .inr ⟨fault, tour, ?_, ?_, ⟨items, hitems, hreaches⟩, hstuck⟩
    · rw [hload]
      simp [Except.bind, hfollow, Except.map]
    · rintro path rfl
      cases hstuck

/-- A tour that is stuck gives the reason. -/
theorem load_of_stuck {tour : Tour} (h : source.Reaches tree tour) (hstuck : Stuck tree tour fault) :
    ∃ fault, source.load tree = .error fault ∧ Stuck tree tour fault := by
  obtain ⟨items, hitems, hreaches⟩ := h
  -- The load goes along with a tour, and there is only one to its end.
  rcases load_cases hitems with ⟨files', codes', hok, ⟨items', hitems', hlast⟩, _⟩ |
    ⟨fault', tour', herror, _, ⟨items', hitems', hlast⟩, hstuck'⟩
  · obtain rfl := Except.ok.inj (hitems.symm.trans hitems')
    obtain rfl := hreaches.unique hlast (fun _ => hstuck.not_step) fun _ h => nomatch h
    obtain ⟨_, hnext⟩ := hstuck.exists_next
    simp [Tour.next?] at hnext
  · obtain rfl := Except.ok.inj (hitems.symm.trans hitems')
    obtain rfl := hreaches.unique hlast (fun _ => hstuck.not_step) fun _ => hstuck'.not_step
    exact ⟨fault', herror, hstuck'⟩

theorem load_eq_error (h : source.items tree = .error fault) : source.load tree = .error fault := by
  rw [load_eq, h]
  rfl

theorem load_ne_tooDeep (tree : FileTree) (source : Source) (path : Path) :
    source.load tree ≠ .error (.tooDeep path) := by
  intro hload
  cases hitems : source.items tree with
  | error fault =>
    obtain rfl := Except.error.inj ((load_eq_error hitems).symm.trans hload)
    exact (items_ne_error tree source path).1 hitems
  | ok items =>
    rcases load_cases hitems with ⟨_, _, hok, _⟩ | ⟨fault, _, herror, hdeep, _⟩
    · simp [hok] at hload
    · exact hdeep path (Except.error.inj (herror.symm.trans hload))

/-- A load fails with a cycle exactly if its tour comes to a file that is still being read. -/
theorem load_eq_includeCycle_iff (tree : FileTree) (source : Source) (path : Path) :
    source.load tree = .error (.includeCycle path) ↔
      ∃ tour route, source.Reaches tree tour ∧ tour.MeetsOpen tree route ∧ path = route.render := by
  constructor
  · intro hload
    cases hitems : source.items tree with
    | error fault =>
      obtain rfl := Except.error.inj ((load_eq_error hitems).symm.trans hload)
      exact absurd hitems (items_ne_error tree source path).2
    | ok items =>
      rcases load_cases hitems with ⟨_, _, hok, _⟩ | ⟨fault, tour, herror, _, hreaches, hstuck⟩
      · simp [hok] at hload
      · obtain rfl := Except.error.inj (herror.symm.trans hload)
        cases hstuck with
        | cycle hopen => exact ⟨tour, _, hreaches, hopen, rfl⟩
  · rintro ⟨tour, route, hreaches, hopen, rfl⟩
    obtain ⟨fault, herror, hstuck⟩ := load_of_stuck hreaches (.cycle hopen)
    rw [herror, hstuck.eq_includeCycle hopen]

/-- A load never fails for the depth of includes.  It fails with a cycle exactly if its tour comes to
    an include of a file that is still being read.  If it does not, and the definitions are valid and
    unique, it gives the codes of every file that is mentioned once, each file's in order and where the
    file is mentioned first. -/
theorem load_reads_once (tree : FileTree) (source : Source) :
    (∀ path, source.load tree ≠ .error (.tooDeep path)) ∧
    (∀ path, source.load tree = .error (.includeCycle path) ↔
      ∃ tour route, source.Reaches tree tour ∧ tour.MeetsOpen tree route ∧ path = route.render) ∧
    ∀ items, source.items tree = .ok items → Valid tree items → Unique tree items →
      (∀ path, source.load tree ≠ .error (.includeCycle path)) →
      ∃ files codes, source.load tree = .ok (.numbered codes) ∧
        Unfolds tree source.called [] items files codes ∧
        files.Nodup ∧ (∀ route, route ∈ files ↔ Mentioned tree items route) ∧
        (codes.map Code.bare).Perm
          (codesOf items ++ files.flatMap fun route => codesOf (itemsAt tree route)) := by
  refine ⟨load_ne_tooDeep tree source, load_eq_includeCycle_iff tree source, ?_⟩
  intro items hitems hvalid hunique hcycle
  have hstart : Tour.Sound tree items ⟨[⟨none, source.called, items⟩], [], []⟩ := .initial ..
  rcases load_cases hitems with ⟨files, codes, hok, ⟨items', hitems', hreaches⟩, hunfolds, _⟩ |
    ⟨fault, tour, herror, _, ⟨items', hitems', hreaches⟩, hstuck⟩
  · obtain rfl := Except.ok.inj (hitems.symm.trans hitems')
    have hsound := hstart.reaches hreaches
    refine ⟨files, codes, hok, hunfolds, hsound.begun, hsound.mem_begun_iff, ?_⟩
    simpa [Tour.unread, Tour.allCodes] using hsound.codes
  · obtain rfl := Except.ok.inj (hitems.symm.trans hitems')
    obtain ⟨path, rfl⟩ := (hstart.reaches hreaches).not_stuck hvalid hunique hstuck
    exact absurd herror (hcycle path)

/-- Four files, one of which is included by two others. -/
def diamond : FileTree where
  entries := [
    (["top"], .file "#include \"left\"\n#include \"right\"\nlast 3 4\n".toUTF8.data),
    (["left"], .file "#include \"base\"\none 1 4\n".toUTF8.data),
    (["right"], .file "#include \"base\"\ntwo 2 4\n".toUTF8.data),
    (["base"], .file "zero 0 4\n".toUTF8.data)]

/-- Definitions whose includes meet again are valid and unique, and each file is read once. -/
theorem load_reads_once_diamond :
    Valid diamond [.includes "top"] ∧ Unique diamond [.includes "top"] ∧
      (∀ path, (file "top").load diamond ≠ .error (.includeCycle path)) ∧
      ∃ files codes, (file "top").load diamond = .ok (.numbered codes) ∧
        Unfolds diamond "" [] [.includes "top"] files codes ∧ files.Nodup ∧
        (∀ route, route ∈ files ↔ Mentioned diamond [.includes "top"] route) ∧
        (codes.map Code.bare).Perm
          (codesOf [.includes "top"] ++ files.flatMap fun route => codesOf (itemsAt diamond route)) := by
  have hcovers : covers diamond [.includes "top"] [["base"], ["left"], ["right"], ["top"]] := by
    decide +kernel
  have hvalid := Valid.of_covers hcovers
  have hunique := Unique.of_covers hcovers (by decide +kernel)
  have hok : ((file "top").load diamond).toOption.isSome := by decide +kernel
  have hcycle : ∀ path, (file "top").load diamond ≠ .error (.includeCycle path) := by
    intro path hload
    simp [hload, Except.toOption] at hok
  exact ⟨hvalid, hunique, hcycle,
    (load_reads_once diamond (file "top")).2.2 _ rfl hvalid hunique hcycle⟩

end Source

end Loader

end CartScript
