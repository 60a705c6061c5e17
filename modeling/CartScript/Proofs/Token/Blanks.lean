import CartScript.Proofs.Token.Joined

/-!
# What blanks are made of

The gap before a token is a row of passages: spaces, comments and line ends that are passed over.
-/

namespace CartScript.Lexer

open Ascii

/-- Whether a block comment would end within some bytes. -/
def Closes (bytes : List UInt8) : Prop := [star, slash] <:+: bytes

instance : DecidablePred Closes := fun bytes => inferInstanceAs (Decidable ([star, slash] <:+: bytes))

/-- A blank on its own. -/
inductive Passage where
  | space (b : UInt8) (h : isSpace b = true)
  | lineComment (body : List UInt8) (h : lineFeed ∉ body)
  | blockComment (body : List UInt8) (h : ¬ Closes body)
  /-- A backslash and the end of a line, which may have a carriage return in front. -/
  | continued (returned : Bool)
  /-- A backslash and a carriage return. -/
  | returned

namespace Passage

def bytes : Passage → List UInt8
  | space b _ => [b]
  | lineComment body _ => slash :: slash :: body
  | blockComment body _ => slash :: star :: body ++ [star, slash]
  | continued false => [backslash, lineFeed]
  | continued true => [backslash, carriageReturn, lineFeed]
  | returned => [backslash, carriageReturn]

/-- Whether the passage ends where it ends, whatever follows it. -/
def isFirm : Passage → Bool
  | lineComment .. => false
  | returned => false
  | _ => true

end Passage

/-! ## Block comments -/

theorem not_closes_nil : ¬ Closes [] := by simp [Closes]

variable {bytes rest : List UInt8} {size : Nat}

theorem closes_cons {b : UInt8} :
    Closes (b :: rest) ↔ b = star ∧ rest.head? = some slash ∨ Closes rest := by
  rw [Closes, List.infix_cons_iff, List.cons_prefix_cons, Closes]
  cases rest with
  | nil => simp
  | cons c rest => simp [eq_comm]

/-- A block comment ends with the first closing mark. -/
theorem commentSize?_of_not_closes {body : List UInt8} (h : ¬ Closes body) (rest : List UInt8) :
    commentSize? (body ++ star :: slash :: rest) = some (body.length + 2) := by
  induction body with
  | nil => rfl
  | cons b body ih =>
    rw [closes_cons, not_or] at h
    -- The byte before the closing mark does not make one with the star of the mark.
    have hopen : ¬ (b = star ∧ (body ++ star :: slash :: rest).head? = some slash) := by
      cases body with
      | nil => exact fun h => absurd (Option.some.inj h.2) (by decide)
      | cons c body => exact h.1
    rw [List.cons_append, commentSize?, if_neg hopen, ih h.2, Option.map_some, List.length_cons,
      Nat.add_right_comm]

theorem not_closes_of_commentSize? (h : commentSize? bytes = none) : ¬ Closes bytes := by
  fun_induction commentSize? bytes with
  | case1 => exact not_closes_nil
  | case2 => simp at h
  | case3 b rest hopen ih =>
    rw [closes_cons, not_or]
    exact ⟨hopen, ih (Option.map_eq_none_iff.1 h)⟩

theorem take_of_commentSize? (h : commentSize? bytes = some size) :
    ∃ body, bytes.take size = body ++ [star, slash] ∧ ¬ Closes body := by
  fun_induction commentSize? bytes generalizing size with
  | case1 => simp at h
  | case2 b rest hclose =>
    obtain rfl := Option.some.inj h
    obtain ⟨rfl, hhead⟩ := hclose
    cases rest with
    | nil => simp at hhead
    | cons c rest =>
      obtain rfl := Option.some.inj hhead
      exact ⟨[], rfl, not_closes_nil⟩
  | case3 b rest hopen ih =>
    obtain ⟨n, hn, rfl⟩ := Option.map_eq_some_iff.1 h
    obtain ⟨body, htake, hbody⟩ := ih hn
    refine ⟨b :: body, by rw [List.take_succ_cons, htake, List.cons_append], ?_⟩
    rw [closes_cons, not_or]
    refine ⟨fun hclose => ?_, hbody⟩
    obtain ⟨hb, hhead⟩ := hclose
    apply hopen
    refine ⟨hb, ?_⟩
    -- What follows the byte in the body follows it in the text.
    obtain ⟨tail, rfl⟩ : ∃ tail, rest = body ++ tail :=
      ⟨[star, slash] ++ rest.drop n, by rw [← List.append_assoc, ← htake, List.take_append_drop]⟩
    rw [List.head?_append, hhead, Option.some_or]

/-! ## Gaps -/

/-- A passage that ends on its own is passed over. -/
theorem passed_passage {p : Passage} (h : p.isFirm = true) : Passed p.bytes := by
  intro rest
  have hclosed (hblank : blank (p.bytes ++ rest) = .closed p.bytes.length) :
      gap (p.bytes ++ rest) = ⟨p.bytes.length + (gap rest).size, (gap rest).unclosed⟩ := by
    rw [gap_of_closed hblank, List.drop_left]
  cases p with
  | space b hb => exact passed_space hb rest
  | lineComment => simp [Passage.isFirm] at h
  | blockComment body hbody =>
    refine hclosed ?_
    have hsize := commentSize?_of_not_closes hbody rest
    simp only [Passage.bytes, List.cons_append, List.append_assoc, List.nil_append, blank, comment,
      show isSpace slash = false by decide, show slash ≠ backslash by decide,
      show star ≠ slash by decide, Bool.false_eq_true, if_false, if_true, hsize, List.length_cons,
      List.length_append, List.length_nil]
    rw [Blank.closed.injEq]
    omega
  | continued returned =>
    refine hclosed ?_
    cases returned with
    | false | true => rfl
  | returned => simp [Passage.isFirm] at h

/-- The bytes of a row of passages. -/
def rowBytes (row : List Passage) : List UInt8 := row.flatMap Passage.bytes

theorem rowBytes_cons (p : Passage) (row : List Passage) :
    rowBytes (p :: row) = p.bytes ++ rowBytes row := List.flatMap_cons ..

theorem rowBytes_append (row more : List Passage) :
    rowBytes (row ++ more) = rowBytes row ++ rowBytes more := List.flatMap_append ..

/-- So is a row of them. -/
theorem passed_row {row : List Passage} (h : ∀ p ∈ row, p.isFirm = true) : Passed (rowBytes row) := by
  intro rest
  induction row with
  | nil => simp [rowBytes]
  | cons p row ih =>
    obtain ⟨hp, hrow⟩ := List.forall_mem_cons.1 h
    rw [rowBytes_cons, List.append_assoc, passed_passage hp, ih hrow, List.length_append,
      Nat.add_assoc]

/-- Spaces in a row. -/
theorem exists_row_of_spaces {spaces : List UInt8} (h : ∀ b ∈ spaces, isSpace b = true) :
    ∃ row, spaces = rowBytes row := by
  induction spaces with
  | nil => exact ⟨[], rfl⟩
  | cons b spaces ih =>
    obtain ⟨hb, hspaces⟩ := List.forall_mem_cons.1 h
    obtain ⟨row, rfl⟩ := ih hspaces
    exact ⟨.space b hb :: row, rfl⟩

theorem take_takeWhile (p : UInt8 → Bool) (bytes : List UInt8) :
    bytes.take (bytes.takeWhile p).length = bytes.takeWhile p :=
  (List.prefix_iff_eq_take.1 (List.takeWhile_prefix p)).symm

/-- The blank after a backslash. -/
theorem take_of_continuation (h : continuation rest = .closed size) :
    ∃ p : Passage, (backslash :: rest).take size = p.bytes := by
  cases rest with
  | nil => simp [continuation] at h
  | cons b rest =>
    rw [continuation] at h
    split at h
    · rename_i hb
      obtain rfl := Blank.closed.inj h
      subst hb
      exact ⟨.continued false, rfl⟩
    · split at h
      · rename_i hb
        subst hb
        split at h
        · rename_i hhead
          obtain rfl := Blank.closed.inj h
          obtain ⟨rest, rfl⟩ := List.head?_eq_some_iff.1 hhead
          exact ⟨.continued true, rfl⟩
        · obtain rfl := Blank.closed.inj h
          exact ⟨.returned, rfl⟩
      · simp at h

/-- The blank after a slash. -/
theorem take_of_comment (h : comment rest = .closed size) :
    ∃ p : Passage, (slash :: rest).take size = p.bytes := by
  cases rest with
  | nil => simp [comment] at h
  | cons b rest =>
    rw [comment] at h
    split at h
    · rename_i hb
      obtain rfl := Blank.closed.inj h
      subst hb
      have hbody : lineFeed ∉ rest.takeWhile (· != lineFeed) := fun hmem =>
        absurd (List.all_eq_true.1 List.all_takeWhile _ hmem) (by simp)
      refine ⟨.lineComment _ hbody, ?_⟩
      rw [Nat.add_comm, List.take_succ_cons, List.take_succ_cons, take_takeWhile]
      rfl
    · split at h
      · rename_i hb
        subst hb
        split at h
        · rename_i n hsize
          obtain rfl := Blank.closed.inj h
          obtain ⟨body, htake, hbody⟩ := take_of_commentSize? hsize
          refine ⟨.blockComment body hbody, ?_⟩
          rw [Nat.add_comm, List.take_succ_cons, List.take_succ_cons, htake]
          rfl
        · simp at h
      · simp at h

/-- What stands at the start of a text, as far as blanks are concerned, is a row of passages. -/
theorem exists_row_of_blank (h : blank bytes = .closed size) :
    ∃ row, bytes.take size = rowBytes row := by
  cases bytes with
  | nil => simp [blank] at h
  | cons b rest =>
    rw [blank] at h
    split at h
    · rename_i hb
      obtain rfl := Blank.closed.inj h
      have hspaces : ∀ c ∈ rest.takeWhile isSpace, isSpace c = true :=
        List.all_eq_true.1 List.all_takeWhile
      obtain ⟨row, hrow⟩ := exists_row_of_spaces hspaces
      refine ⟨.space b hb :: row, ?_⟩
      rw [Nat.add_comm, List.take_succ_cons, take_takeWhile, hrow]
      rfl
    · split at h
      · rename_i hb
        subst hb
        obtain ⟨p, hp⟩ := take_of_continuation h
        exact ⟨[p], by rw [hp, rowBytes, List.flatMap_singleton]⟩
      · split at h
        · rename_i hb
          subst hb
          obtain ⟨p, hp⟩ := take_of_comment h
          exact ⟨[p], by rw [hp, rowBytes, List.flatMap_singleton]⟩
        · simp at h

/-- A comment that is not closed. -/
theorem of_blank_unclosedComment (h : blank bytes = .unclosedComment) :
    ∃ body, bytes = slash :: star :: body ∧ ¬ Closes body := by
  cases bytes with
  | nil => simp [blank] at h
  | cons b rest =>
    rw [blank] at h
    split at h
    · simp at h
    · split at h
      · cases rest with
        | nil => simp [continuation] at h
        | cons c rest => simp only [continuation] at h; split at h <;> grind
      · split at h
        · rename_i hb
          subst hb
          cases rest with
          | nil => simp [comment] at h
          | cons c rest =>
            rw [comment] at h
            split at h
            · simp at h
            · split at h
              · rename_i hc
                subst hc
                split at h
                · simp at h
                · rename_i hsize
                  exact ⟨rest, rfl, not_closes_of_commentSize? hsize⟩
              · simp at h
        · simp at h

/-- The gap before a token is a row of passages, and only a comment that is not closed can follow it
    in place of a token. -/
theorem exists_row_of_gap (bytes : List UInt8) :
    (∃ row, bytes.take (gap bytes).size = rowBytes row) ∧
      ((gap bytes).unclosed = true →
        ∃ body, bytes.drop (gap bytes).size = slash :: star :: body ∧ ¬ Closes body) := by
  fun_induction gap bytes with
  | case1 bytes habsent => exact ⟨⟨[], rfl⟩, fun h => by simp at h⟩
  | case2 bytes hunclosed => exact ⟨⟨[], rfl⟩, fun _ => of_blank_unclosedComment hunclosed⟩
  | case3 bytes size hclosed tail ih =>
    obtain ⟨first, hfirst⟩ := exists_row_of_blank hclosed
    obtain ⟨⟨row, hrow⟩, hcomment⟩ := ih
    refine ⟨⟨first ++ row, ?_⟩, fun h => ?_⟩
    · rw [rowBytes_append, ← hfirst, ← hrow, List.take_add]
    · obtain ⟨body, hbody, hopen⟩ := hcomment h
      exact ⟨body, by rw [← hbody, List.drop_drop], hopen⟩

end CartScript.Lexer
