import CartScript.Image.File
import Mathlib.Data.List.InsertIdx
import Mathlib.Data.List.Nodup

/-!
# Open images and their claims

A process opens images and closes them again, in any order and by any paths, while the file system
may change in between and may let any step of an opening fail.  The claims are the places of the
images that are open at the moment.
-/

namespace CartScript

namespace Claims

variable {claims : Claims} {route : Route}

theorem take?_eq_none_iff : claims.take? route = none ↔ route ∈ claims := by
  simp [take?]

theorem take?_eq_some_iff {claimed : Claims} :
    claims.take? route = some claimed ↔ route ∉ claims ∧ claims ++ [route] = claimed := by
  simp [take?]

/-- To give a claim up again that was just taken changes nothing. -/
theorem release_append (h : route ∉ claims) : release (claims ++ [route]) route = claims := by
  rw [release, List.filter_append, List.filter_eq_self.2]
  · simp
  · intro other hother
    exact bne_iff_ne.2 fun heq => h (heq ▸ hother)

end Claims

namespace ImageFile

variable {system : FileSystem} {route : Route} {path : Path}

theorem route_of_load {file : ImageFile} (h : load system route = .ok file) :
    file.route = route := by
  unfold load at h
  split at h
  · simp at h
  · split at h
    · simp at h
    · simp at h
    · split at h
      · simp at h
      · obtain rfl := Except.ok.inj h
        rfl

/-- Only a lock that someone else has keeps an image busy after its place was claimed. -/
theorem blocked_of_load (h : load system route = .error (.inUse path)) :
    system.lock route = .blocked := by
  unfold load at h
  split at h
  · simp at h
  · split at h
    · simp at h
    · assumption
    · split at h <;> simp at h

/-- An opening leads nowhere, or to a place that is claimed, or it claims the place: then it reads the
    image, or it fails and the claims are as before. -/
theorem attempt_cases (system : FileSystem) (claims : Claims) (path : Path) :
    (∃ fault, system.resolve path = .error fault ∧
      attempt system claims path = (.error (.file fault), claims)) ∨
    ∃ route, system.resolve path = .ok route ∧
      (route ∈ claims ∧ attempt system claims path = (.error (.inUse route.render), claims) ∨
      route ∉ claims ∧
        ((∃ fault, load system route = .error fault ∧
            attempt system claims path = (.error fault, claims)) ∨
          ∃ file, load system route = .ok file ∧
            attempt system claims path = (.ok file, claims ++ [route]))) := by
  unfold attempt
  cases system.resolve path with
  | error fault => exact .inl ⟨fault, rfl, rfl⟩
  | ok route =>
    refine .inr ⟨route, rfl, ?_⟩
    dsimp only
    cases htake : claims.take? route with
    | none => exact .inl ⟨Claims.take?_eq_none_iff.1 htake, rfl⟩
    | some claimed =>
      obtain ⟨hnew, rfl⟩ := Claims.take?_eq_some_iff.1 htake
      refine .inr ⟨hnew, ?_⟩
      dsimp only
      cases load system route with
      | error fault => exact .inl ⟨fault, rfl, by rw [Claims.release_append hnew]⟩
      | ok file => exact .inr ⟨file, rfl, rfl⟩

/-- A failed opening leaves the claims as they were. -/
theorem claims_of_failed {claims : Claims} {fault : OpenFault}
    (h : (attempt system claims path).1 = .error fault) :
    (attempt system claims path).2 = claims := by
  rcases attempt_cases system claims path with
    ⟨_, -, heq⟩ | ⟨_, -, ⟨-, heq⟩ | ⟨-, ⟨_, -, heq⟩ | ⟨_, -, heq⟩⟩⟩
  · rw [heq]
  · rw [heq]
  · rw [heq]
  · simp [heq] at h

end ImageFile

/-- What a process does with images. -/
inductive HandleAction where
  /-- Opens the image of a path; the file system is as it is at that time. -/
  | attempt (system : FileSystem) (path : Path)
  /-- Closes one of the open images, given by its number. -/
  | drop (number : Nat)

/-- The images that a process has open, and all claims. -/
structure Handles where
  claims : Claims := []
  live : List ImageFile := []

namespace Handles

/-- Does one thing. -/
def step (h : Handles) : HandleAction → Handles
  | .attempt system path =>
    let (outcome, claims) := ImageFile.attempt system h.claims path
    { claims, live := h.live ++ outcome.toOption.toList }
  | .drop number =>
    { claims := h.live[number]?.elim h.claims (·.close h.claims), live := h.live.eraseIdx number }

/-- Does one thing after the other. -/
def run (h : Handles) (actions : List HandleAction) : Handles := actions.foldl step h

/-- The claims are the places of the open images, each of them once. -/
structure Kept (h : Handles) : Prop where
  claims_eq : h.claims = h.live.map ImageFile.route
  nodup : h.claims.Nodup

theorem Kept.mem_claims_iff {h : Handles} (hkept : h.Kept) {route : Route} :
    route ∈ h.claims ↔ ∃ file ∈ h.live, file.route = route := by
  rw [hkept.claims_eq, List.mem_map]

/-- Closing an image takes its claim from its place in the list. -/
theorem filter_eq_eraseIdx {routes : List Route} (hnodup : routes.Nodup) {number : Nat}
    {route : Route} (hroute : routes[number]? = some route) :
    routes.filter (· != route) = routes.eraseIdx number := by
  obtain ⟨hlt, rfl⟩ := List.getElem?_eq_some_iff.1 hroute
  rw [← hnodup.erase_eq_filter, hnodup.erase_getElem number hlt]

theorem Kept.step {h : Handles} (hkept : h.Kept) (action : HandleAction) : (h.step action).Kept := by
  cases action with
  | attempt system path =>
    -- A failed opening changes nothing.
    have hfailed {fault : OpenFault}
        (heq : ImageFile.attempt system h.claims path = (.error fault, h.claims)) :
        h.step (.attempt system path) = h := by
      simp [Handles.step, heq, Except.toOption]
    rcases ImageFile.attempt_cases system h.claims path with
      ⟨_, -, heq⟩ | ⟨route, -, ⟨-, heq⟩ | ⟨hnew, ⟨_, -, heq⟩ | ⟨file, hload, heq⟩⟩⟩
    · rwa [hfailed heq]
    · rwa [hfailed heq]
    · rwa [hfailed heq]
    · have hstep : h.step (.attempt system path) = ⟨h.claims ++ [route], h.live ++ [file]⟩ := by
        simp [Handles.step, heq, Except.toOption]
      rw [hstep]
      refine ⟨?_, List.nodup_append.2 ⟨hkept.nodup, List.nodup_singleton route, ?_⟩⟩
      · show h.claims ++ [route] = (h.live ++ [file]).map ImageFile.route
        rw [hkept.claims_eq, List.map_append, List.map_singleton, ImageFile.route_of_load hload]
      · rintro _ hmem _ hlast rfl
        exact hnew (List.mem_singleton.1 hlast ▸ hmem)
  | drop number =>
    cases hfile : h.live[number]? with
    | none =>
      have hsame : h.live.eraseIdx number = h.live :=
        List.eraseIdx_of_length_le (List.getElem?_eq_none_iff.1 hfile)
      simpa [Handles.step, hfile, hsame] using hkept
    | some file =>
      have hroute : h.claims[number]? = some file.route := by
        rw [hkept.claims_eq, List.getElem?_map, hfile, Option.map_some]
      have hclaims : (h.step (.drop number)).claims = h.claims.eraseIdx number := by
        simp [Handles.step, hfile, ImageFile.close, Claims.release,
          filter_eq_eraseIdx hkept.nodup hroute]
      refine ⟨?_, ?_⟩
      · rw [hclaims, hkept.claims_eq, List.eraseIdx_map]
        rfl
      · rw [hclaims]
        exact hkept.nodup.sublist (List.eraseIdx_sublist ..)

theorem Kept.run {h : Handles} (hkept : h.Kept) (actions : List HandleAction) :
    (h.run actions).Kept := by
  induction actions generalizing h with
  | nil => exact hkept
  | cons action actions ih => exact ih (hkept.step action)

/-- After any openings and closings, the claims are the places of the open images, each of them once.
    If a lock is refused only for a file that is open, then an opening is refused because the image is
    in use exactly if an open image has its place.  A failed opening leaves the claims as they were. -/
theorem run_claims (actions : List HandleAction) (system : FileSystem) (path : Path)
    (hlock : ∀ route, system.lock route = .blocked →
      ∃ file ∈ (run {} actions).live, file.route = route) :
    (run {} actions).claims = (run {} actions).live.map ImageFile.route ∧
    (run {} actions).claims.Nodup ∧
    (∀ shown, (ImageFile.attempt system (run {} actions).claims path).1 = .error (.inUse shown) ↔
      ∃ file ∈ (run {} actions).live, system.resolve path = .ok file.route ∧
        shown = file.route.render) ∧
    ∀ fault, (ImageFile.attempt system (run {} actions).claims path).1 = .error fault →
      (ImageFile.attempt system (run {} actions).claims path).2 = (run {} actions).claims := by
  have hkept : (run {} actions).Kept := Kept.run ⟨rfl, List.nodup_nil⟩ actions
  refine ⟨hkept.claims_eq, hkept.nodup, ?_, fun _ => ImageFile.claims_of_failed⟩
  intro shown
  rcases ImageFile.attempt_cases system (run {} actions).claims path with
    ⟨_, hresolve, heq⟩ | ⟨route, hresolve, ⟨hmem, heq⟩ | ⟨hnew, hload⟩⟩
  · simp [hresolve, heq]
  · obtain ⟨file, hfile, rfl⟩ := hkept.mem_claims_iff.1 hmem
    rw [heq, hresolve]
    constructor
    · intro hshown
      exact ⟨file, hfile, rfl, by simpa using hshown.symm⟩
    · rintro ⟨other, -, hroute, rfl⟩
      rw [Except.ok.inj hroute]
  · -- Nobody has the place, so nobody has its lock.
    have hfree : ¬ ∃ file ∈ (run {} actions).live, file.route = route :=
      fun hlive => hnew (hkept.mem_claims_iff.2 hlive)
    constructor
    · intro hshown
      rcases hload with ⟨fault, hload, heq⟩ | ⟨file, -, heq⟩
      · rw [heq] at hshown
        obtain rfl := Except.error.inj hshown
        exact absurd (hlock route (ImageFile.blocked_of_load hload)) hfree
      · simp [heq] at hshown
    · rintro ⟨file, hfile, hroute, -⟩
      exact absurd ⟨file, hfile, (Except.ok.inj (hresolve.symm.trans hroute)).symm⟩ hfree

/-- A directory with an image. -/
def shelf : FileTree where
  entries := [(["roms"], .directory), (["roms", "game"], .file #[1, 2])]
  workDir := ["roms"]

/-- Opens the image, closes it, opens it again, and fails to open two others. -/
def session : List HandleAction :=
  [.attempt shelf.system "game", .drop 0, .attempt shelf.system "./game", .attempt shelf.system "/roms",
    .attempt shelf.system "gone"]

/-- The shelf while the image is open. -/
def busy : FileSystem :=
  { shelf.system with lock := fun route => if route = ["roms", "game"] then .blocked else .granted }

/-- An image that is open by one path is in use by another one, too. -/
theorem run_claims_session :
    (∀ route, busy.lock route = .blocked → ∃ file ∈ (run {} session).live, file.route = route) ∧
      (ImageFile.attempt busy (run {} session).claims "../roms/game").1 =
        .error (.inUse "/roms/game") := by
  have hlive : (run {} session).live = [⟨["roms", "game"], #[1, 2]⟩] := by decide +kernel
  have hlock : ∀ route, busy.lock route = .blocked →
      ∃ file ∈ (run {} session).live, file.route = route := by
    intro route hblocked
    have hroute : route = ["roms", "game"] := by
      by_contra hne
      simp [busy, hne] at hblocked
    simp [hlive, hroute]
  have hpath : busy.resolve "../roms/game" = .ok ["roms", "game"] := by decide +kernel
  refine ⟨hlock, ((run_claims session busy "../roms/game" hlock).2.2.1 "/roms/game").2 ?_⟩
  exact ⟨_, by rw [hlive]; exact .head _, hpath, by decide +kernel⟩

end Handles

end CartScript
