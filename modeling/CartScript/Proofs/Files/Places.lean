import CartScript.Files.Tree
import CartScript.Proofs.Except
import Mathlib.Data.List.Induction
import Mathlib.Data.List.Nodup

/-!
# Paths of places

A file system keeps some promises that a list of entries alone does not: there is one entry at a
place, names hold no slash, and the directories on the way to an entry exist.  In a tree that is
`Lawful` the absolute path of a place leads back to the place, unless it is too long, and a name in a
directory stands for the same file however the path of the directory is written.
-/

namespace CartScript

/-! ## Pieces of a path -/

namespace Text

variable {p : Char → Bool}

theorem splitBy_ne_nil (p : Char → Bool) (cs : List Char) : splitBy p cs ≠ [] := by
  cases cs with
  | nil => simp [splitBy]
  | cons c cs =>
    rw [splitBy]
    split
    · simp
    · split <;> simp

theorem splitBy_of_forall {cs : List Char} (h : ∀ c ∈ cs, p c = false) : splitBy p cs = [cs] := by
  induction cs with
  | nil => rfl
  | cons c cs ih =>
    have hc : ¬ p c := by simp [h c List.mem_cons_self]
    rw [splitBy, if_neg hc, ih fun d hd => h d (.tail _ hd)]

/-- A cut divides the pieces before it from those after it. -/
theorem splitBy_append_cons {c : Char} (hc : p c) (before after : List Char) :
    splitBy p (before ++ c :: after) = splitBy p before ++ splitBy p after := by
  induction before with
  | nil => simp [splitBy, hc]
  | cons d before ih =>
    rw [List.cons_append, splitBy, splitBy, ih]
    by_cases hd : p d
    · simp [hd]
    · simp only [hd]
      obtain ⟨piece, pieces, hpieces⟩ := List.exists_cons_of_ne_nil (splitBy_ne_nil p before)
      rw [hpieces]
      rfl

end Text

namespace Path

/-- A name as it may stand in a directory. -/
structure IsName (name : String) : Prop where
  ne_empty : name ≠ ""
  ne_dot : name ≠ "."
  ne_dots : name ≠ ".."
  no_slash : '/' ∉ name.toList

instance (name : String) : Decidable (IsName name) :=
  decidable_of_iff (name ≠ "" ∧ name ≠ "." ∧ name ≠ ".." ∧ '/' ∉ name.toList)
    ⟨fun h => ⟨h.1, h.2.1, h.2.2.1, h.2.2.2⟩, fun h => ⟨h.ne_empty, h.ne_dot, h.ne_dots, h.no_slash⟩⟩

variable {name : String} {base : Path}

theorem names_of_no_slash (h : '/' ∉ name.toList) : names name = [name] := by
  have hnone : ∀ c ∈ name.toList, (c == '/') = false := by
    intro c hc
    exact beq_eq_false_iff_ne.2 fun heq => h (heq ▸ hc)
  rw [names, Text.splitBy_of_forall hnone, List.map_singleton, String.ofList_toList]

theorem names_append_slash (before after : Path) :
    names (before ++ "/" ++ after) = names before ++ names after := by
  have hlist : (before ++ "/" ++ after).toList = before.toList ++ '/' :: after.toList := by simp
  rw [names, hlist, Text.splitBy_append_cons (by rfl), List.map_append]
  rfl

theorem isAbsolute_eq_false (h : IsName name) : isAbsolute name = false := by
  have hhead : name.toList.head? ≠ some '/' := fun heq => h.no_slash (List.mem_of_mem_head? heq)
  simpa [isAbsolute] using hhead

/-- The path of a name in a directory: the names of the directory, the last one left out if it is
    empty, and the name. -/
theorem join_cases (hname : IsName name) (hbase : base ≠ "") :
    (∃ before, base = before ++ "/" ∧ join base name = before ++ "/" ++ name) ∨
      join base name = base ++ "/" ++ name := by
  rw [join, isAbsolute_eq_false hname]
  by_cases hlast : base.toList.getLast? = some '/'
  · left
    obtain ⟨before, hbefore⟩ := List.getLast?_eq_some_iff.1 hlast
    have heq : base = String.ofList before ++ "/" := by
      apply String.toList_inj.1
      simp [hbefore]
    exact ⟨String.ofList before, heq, by simp [heq]⟩
  · right
    have hne : base.toList ≠ [] := by simpa using hbase
    have hall : base.toList.getLast?.all (· == '/') = false := by
      rw [List.getLast?_eq_some_getLast hne] at hlast ⊢
      simpa using hlast
    simp [hall]

theorem isAbsolute_join (hname : IsName name) (hbase : base ≠ "") :
    isAbsolute (join base name) = isAbsolute base := by
  have hne : base.toList ≠ [] := by simpa using hbase
  obtain ⟨c, cs, hcs⟩ := List.exists_cons_of_ne_nil hne
  rcases join_cases hname hbase with ⟨before, hbefore, hjoin⟩ | hjoin
  · rw [hjoin, ← hbefore]
    simp [isAbsolute, hcs]
  · rw [hjoin]
    simp [isAbsolute, hcs]

end Path

namespace Route

open CartScript.Path

theorem render_nil : render [] = "/" := by simp [render]

theorem render_append (route : Route) (name : String) :
    render (route ++ [name]) = if route = [] then "/" ++ name else route.render ++ "/" ++ name := by
  by_cases hroute : route = []
  · simp [render, hroute]
  · rw [if_neg hroute, render, render, String.intercalate_append_of_ne_nil hroute (by simp)]
    simp [String.append_assoc]

theorem isAbsolute_render (route : Route) : isAbsolute route.render = true := by
  simp [render, isAbsolute]

/-- The names of an absolute path: an empty one before the first slash, and those of the place. -/
theorem names_render {route : Route} (hroute : route ≠ []) (hnames : ∀ name ∈ route, IsName name) :
    names route.render = "" :: route := by
  induction route using List.reverseRecOn with
  | nil => exact absurd rfl hroute
  | append_singleton route name ih =>
    have hname := hnames name (by simp)
    rw [render_append]
    split
    · rename_i hnil
      rw [hnil, show ("/" ++ name : String) = "" ++ "/" ++ name by simp, names_append_slash,
        names_of_no_slash hname.no_slash]
      rfl
    · rename_i hnil
      rw [names_append_slash, names_of_no_slash hname.no_slash,
        ih hnil fun other hother => hnames other (by simp [hother])]
      rfl

/-- A name seen from the absolute path of a directory. -/
theorem join_render {route : Route} {name : String} (hroute : ∀ name ∈ route, IsName name)
    (hname : IsName name) : join route.render name = (route ++ [name]).render := by
  rw [render_append, join, isAbsolute_eq_false hname]
  by_cases hnil : route = []
  · simp [hnil, render_nil]
  · -- The last name of the directory ends in something else than a slash.
    obtain ⟨before, last, rfl⟩ : ∃ before last, route = before ++ [last] :=
      ⟨_, _, (List.dropLast_concat_getLast hnil).symm⟩
    have hlast := hroute last (by simp)
    have hne : last.toList ≠ [] := by simpa using hlast.ne_empty
    have hcons : ('/' :: last.toList).getLast? = last.toList.getLast? := by
      rw [List.getLast?_eq_some_getLast (by simp), List.getLast_cons hne,
        List.getLast?_eq_some_getLast hne]
    have hend : (render (before ++ [last])).toList.getLast? = last.toList.getLast? := by
      rw [render_append]
      split <;> simp [List.getLast?_append, hcons, List.getLast?_eq_some_getLast hne]
    have hslash : last.toList.getLast? ≠ some '/' :=
      fun heq => hlast.no_slash (List.mem_of_mem_getLast? heq)
    have hall : (render (before ++ [last])).toList.getLast?.all (· == '/') = false := by
      rw [hend]
      rw [List.getLast?_eq_some_getLast hne] at hslash ⊢
      simpa using hslash
    simp [hall, hnil]

end Route

namespace FileTree

open CartScript.Path

variable {tree : FileTree}

/-- What every file system promises. -/
structure Lawful (tree : FileTree) : Prop where
  distinct : (tree.entries.map Prod.fst).Nodup
  names : ∀ entry ∈ tree.entries, ∀ name ∈ entry.1, IsName name ∧ name.utf8ByteSize ≤ nameLimit
  directories : ∀ entry ∈ tree.entries, ∀ n < entry.1.length,
    tree.entry? (entry.1.take n) = some .directory

instance (tree : FileTree) : Decidable tree.Lawful :=
  decidable_of_iff ((tree.entries.map Prod.fst).Nodup ∧
      (∀ entry ∈ tree.entries, ∀ name ∈ entry.1, IsName name ∧ name.utf8ByteSize ≤ nameLimit) ∧
      ∀ entry ∈ tree.entries, ∀ n < entry.1.length,
        tree.entry? (entry.1.take n) = some .directory)
    ⟨fun h => ⟨h.1, h.2.1, h.2.2⟩, fun h => ⟨h.distinct, h.names, h.directories⟩⟩

variable {here place route : Route} {name : String} {entry : FileEntry}

theorem mem_entries_of_entry? (hroute : route ≠ []) (h : tree.entry? route = some entry) :
    (route, entry) ∈ tree.entries := by
  unfold entry? at h
  rw [if_neg hroute] at h
  obtain ⟨before, after, hentries, _⟩ := List.lookup_eq_some_iff.1 h
  rw [hentries]
  simp

/-- The names in a directory are those of its entries. -/
theorem mem_namesAt (h : name ∈ tree.namesAt place) :
    ∃ entry, (place ++ [name], entry) ∈ tree.entries := by
  obtain ⟨⟨route, entry⟩, hmem, hname⟩ := List.mem_filterMap.1 h
  split at hname
  · rename_i hparent
    obtain ⟨before, hbefore⟩ := List.getLast?_eq_some_iff.1 hname
    obtain rfl : route = before ++ [name] := hbefore
    obtain rfl : before = place := by simpa [Route.parent] using hparent
    exact ⟨entry, hmem⟩
  · simp at hname

theorem Lawful.nodup_namesAt (h : tree.Lawful) (place : Route) : (tree.namesAt place).Nodup := by
  have hnames : tree.namesAt place = (tree.entries.map Prod.fst).filterMap fun route =>
      if route.parent = place then route.getLast? else none := by
    rw [List.filterMap_map]
    rfl
  rw [hnames]
  refine List.Nodup.filterMap ?_ h.distinct
  -- The directory and the name determine the place.
  intro route route' name hroute hroute'
  have heq {route : Route} (hroute : name ∈ if route.parent = place then route.getLast? else none) :
      route = place ++ [name] := by
    split at hroute
    · rename_i hparent
      obtain ⟨before, rfl⟩ := List.getLast?_eq_some_iff.1 hroute
      simpa [Route.parent] using hparent
    · simp at hroute
  rw [heq hroute, heq hroute']

/-! ## Following names -/

theorem walk_append (tree : FileTree) (here : Route) (names names' : List String) :
    tree.walk here (names ++ names') =
      (tree.walk here names).bind fun place => tree.walk place names' := by
  induction names generalizing here with
  | nil => rfl
  | cons name names ih =>
    rw [List.cons_append, walk, walk]
    split
    · rfl
    · rfl
    · split
      · exact ih here
      · split
        · exact ih _
        · split
          · rfl
          · split
            · exact ih _
            · rfl

/-- A name leads from a directory to the entry of this name. -/
theorem walk_name (hname : IsName name) (h : tree.walk here [name] = .ok place) :
    place = here ++ [name] := by
  rw [walk] at h
  split at h
  · simp at h
  · simp at h
  · rw [if_neg (by simp [hname.ne_empty, hname.ne_dot]), if_neg hname.ne_dots] at h
    split at h
    · simp at h
    · split at h
      · exact (Except.ok.inj h).symm
      · simp at h

theorem walk_empty (h : tree.walk here [""] = .ok place) : place = here := by
  rw [walk] at h
  split at h
  · simp at h
  · simp at h
  · rw [if_pos (.inl rfl)] at h
    exact (Except.ok.inj h).symm

/-- Directories and names that are there are followed to the end. -/
theorem walk_eq_ok (hnames : ∀ name ∈ route, IsName name ∧ name.utf8ByteSize ≤ nameLimit)
    (hdirectories : ∀ n < route.length, tree.entry? (here ++ route.take n) = some .directory)
    (hlast : (tree.entry? (here ++ route)).isSome) :
    tree.walk here route = .ok (here ++ route) := by
  induction route generalizing here with
  | nil => simp [walk]
  | cons name route ih =>
    obtain ⟨hname, hlimit⟩ := hnames name (.head _)
    have hhere : tree.entry? here = some .directory := by simpa using hdirectories 0 (by simp)
    have hthere : (tree.entry? (here ++ [name])).isSome := by
      cases route with
      | nil => exact hlast
      | cons next route => simp [show tree.entry? (here ++ [name]) = some .directory by
          simpa using hdirectories 1 (by simp)]
    have hrest : tree.walk (here ++ [name]) route = .ok (here ++ [name] ++ route) := by
      refine ih (fun other hother => hnames other (.tail _ hother)) ?_ ?_
      · intro n hn
        simpa using hdirectories (n + 1) (by simpa using hn)
      · simpa using hlast
    rw [walk, hhere]
    simp [hname.ne_empty, hname.ne_dot, hname.ne_dots, Nat.not_lt.2 hlimit, hthere, hrest]

/-! ## Where paths lead -/

/-- The absolute path of a place leads to it, if it is not too long. -/
theorem Lawful.resolve_render (h : tree.Lawful) (hroute : route ≠ [])
    (hentry : tree.entry? route = some entry) (hcheck : checkPath route.render = .ok ()) :
    tree.resolve route.render = .ok route := by
  have hmem := mem_entries_of_entry? hroute hentry
  have hnames := h.names _ hmem
  rw [resolve, hcheck]
  show tree.walk (tree.start route.render) (Path.names route.render) = .ok route
  rw [start, Route.isAbsolute_render, if_pos rfl,
    Route.names_render hroute fun name hname => (hnames name hname).1]
  -- The empty name before the first slash stays at the root.
  show tree.walk [] route = .ok route
  exact walk_eq_ok hnames (h.directories _ hmem) (by simp [hentry])

/-- A name seen from a directory leads into the directory. -/
theorem resolve_join {directory : Path} {there : Route} (hname : IsName name)
    (hdirectory : tree.resolve directory = .ok place)
    (h : tree.resolve (join directory name) = .ok there) : there = place ++ [name] := by
  have hbase : directory ≠ "" := by
    rintro rfl
    simp [resolve, checkPath] at hdirectory
  rw [resolve] at hdirectory h
  split at hdirectory
  · split at h
    · rw [start, isAbsolute_join hname hbase, ← start] at h
      rcases join_cases hname hbase with ⟨before, rfl, hjoin⟩ | hjoin
      · -- The empty name after the last slash of the directory leads nowhere else.
        rw [show (before ++ "/" : Path) = before ++ "/" ++ "" by simp, names_append_slash,
          walk_append] at hdirectory
        rw [hjoin, names_append_slash, walk_append, names_of_no_slash hname.no_slash] at h
        obtain ⟨middle, hmiddle, hplace⟩ := Except.bind_eq_ok_iff.1 hdirectory
        obtain ⟨middle', hmiddle', hthere⟩ := Except.bind_eq_ok_iff.1 h
        have hstart : tree.start (before ++ "/" ++ "") = tree.start (before ++ "/") := by simp
        rw [hstart] at hmiddle
        obtain rfl := Except.ok.inj (hmiddle.symm.trans hmiddle')
        obtain rfl := walk_empty hplace
        exact walk_name hname hthere
      · rw [hjoin, names_append_slash, walk_append, names_of_no_slash hname.no_slash] at h
        obtain ⟨middle, hmiddle, hthere⟩ := Except.bind_eq_ok_iff.1 h
        obtain rfl := Except.ok.inj (hmiddle.symm.trans hdirectory)
        exact walk_name hname hthere
    · simp at h
  · simp at hdirectory

end FileTree

end CartScript
