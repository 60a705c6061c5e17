import CartScript.Proofs.Token.Spelling

/-!
# Texts put together

A token that does not reach to the end of a text is read the same when more text follows, and a line
end is read the same in any case.  Where a text is read from does not matter either, but for the
places of its tokens, all of which move alike.
-/

namespace CartScript

namespace Lexer

open Ascii

/-! ## Blanks -/

variable {rest xs : List UInt8} {b : UInt8} {size : Nat} {token : Token} {p : UInt8 → Bool}

theorem takeWhile_append_of_lt (h : (xs.takeWhile p).length < xs.length) (ys : List UInt8) :
    (xs ++ ys).takeWhile p = xs.takeWhile p := by
  rw [List.takeWhile_append, if_neg (by omega)]

theorem commentSize?_append (h : commentSize? xs = some size) (ys : List UInt8) :
    commentSize? (xs ++ ys) = some size := by
  fun_induction commentSize? xs generalizing size with
  | case1 => simp at h
  | case2 b rest hb =>
    cases rest with
    | nil => simp at hb
    | cons c rest =>
      have hb' : b = star ∧ ((c :: rest) ++ ys).head? = some slash := hb
      rw [← h, List.cons_append, commentSize?, if_pos hb']
  | case3 b rest hb ih =>
    obtain ⟨n, hn, rfl⟩ := Option.map_eq_some_iff.1 h
    cases rest with
    | nil => simp [commentSize?] at hn
    | cons c rest =>
      have hb' : ¬(b = star ∧ ((c :: rest) ++ ys).head? = some slash) := hb
      rw [List.cons_append, commentSize?, if_neg hb', ih hn, Option.map_some]

theorem continuation_append (h : continuation xs = .closed size) (hsize : size ≤ xs.length)
    (ys : List UInt8) : continuation (xs ++ ys) = .closed size := by
  cases xs with
  | nil => simp [continuation] at h
  | cons b rest =>
    cases rest with
    | nil => grind [continuation]
    | cons c rest => exact h

theorem comment_append (h : comment xs = .closed size) (hsize : size ≤ xs.length) (ys : List UInt8) :
    comment (xs ++ ys) = .closed size := by
  cases xs with
  | nil => simp [comment] at h
  | cons b rest =>
    simp only [comment, List.cons_append] at h ⊢
    split at h
    · rename_i hb
      rw [Blank.closed.injEq] at h
      rw [if_pos hb, takeWhile_append_of_lt _ ys, h]
      rw [List.length_cons] at hsize
      omega
    · rename_i hb
      rw [if_neg hb]
      split at h
      · rename_i hstar
        rw [if_pos hstar]
        split at h
        · rename_i hs
          rw [commentSize?_append hs, ← h]
        · simp at h
      · simp at h

/-- A blank that ends before the last byte is a blank in a longer text. -/
theorem blank_append (h : blank xs = .closed size) (hsize : size < xs.length) (ys : List UInt8) :
    blank (xs ++ ys) = .closed size := by
  cases xs with
  | nil => simp [blank] at h
  | cons b rest =>
    simp only [blank, List.cons_append] at h ⊢
    rw [List.length_cons] at hsize
    split at h
    · rename_i hb
      rw [Blank.closed.injEq] at h
      rw [if_pos hb, takeWhile_append_of_lt (by omega), h]
    · rename_i hb
      rw [if_neg hb]
      split at h
      · rename_i hb'
        rw [if_pos hb']
        exact continuation_append h (by omega) ys
      · rename_i hb'
        rw [if_neg hb']
        split at h
        · rename_i hb''
          rw [if_pos hb'']
          exact comment_append h (by omega) ys
        · simp at h

/-- What follows does not make a blank of a byte and the next one. -/
theorem blank_append_absent (h : blank (b :: rest) = .absent) (hb : rest ≠ [] ∨ isSolid b = true)
    (ys : List UInt8) : blank (b :: rest ++ ys) = .absent := by
  rcases hb with hrest | hb
  · obtain ⟨c, rest, rfl⟩ := List.exists_cons_of_ne_nil hrest
    simp only [blank, List.cons_append, continuation, comment] at h ⊢
    grind
  · simp only [isSolid, Bool.and_eq_true, Bool.not_eq_true', bne_iff_ne] at hb
    simp [blank, hb.1.1, hb.1.2, hb.2]

/-- The blanks before a token, where the token and more text follow. -/
theorem gap_append (hclosed : (gap xs).unclosed = false) (hdrop : xs.drop (gap xs).size = b :: rest)
    (hb : rest ≠ [] ∨ isSolid b = true) (ys : List UInt8) : gap (xs ++ ys) = gap xs := by
  fun_induction gap xs with
  | case1 xs habsent =>
    obtain rfl : xs = b :: rest := hdrop
    rw [gap]
    split
    · rfl
    all_goals
      rename_i h
      rw [blank_append_absent habsent hb] at h
      cases h
  | case2 => simp at hclosed
  | case3 xs size hblank tail ih =>
    have hlt : size < xs.length := by
      have hlength := congrArg List.length hdrop
      simp only [List.length_drop, List.length_cons] at hlength
      omega
    have hdrop' : (xs.drop size).drop tail.size = b :: rest := by rw [List.drop_drop, ← hdrop]
    rw [gap_of_closed (blank_append hblank hlt ys), List.drop_append_of_le_length (Nat.le_of_lt hlt),
      ih hclosed hdrop']

/-! ## Tokens -/

theorem textBytes_append {content : List UInt8} (h : (textBytes xs).outcome = .ok content)
    (ys : List UInt8) : textBytes (xs ++ ys) = textBytes xs := by
  induction xs using textBytes.induct generalizing content with
  | case1 => simp [textBytes] at h
  | case2 rest => rw [List.cons_append, textBytes.eq_def, textBytes.eq_def]; rfl
  | case3 rest hq | case4 hq hl => rw [textBytes.eq_def] at h; cases h
  | case5 e rest he hq hl =>
    rw [textBytes.eq_def] at h
    simp only [hq, hl, he] at h
    cases h
  | case6 e rest c he hq hl ih =>
    have hstep (tail : List UInt8) : textBytes (backslash :: e :: tail) =
        ⟨(textBytes tail).outcome.map (c :: ·), (textBytes tail).size + 2⟩ := by
      rw [textBytes.eq_def]
      simp only [hq, hl, he, if_true, if_false]
    rw [hstep] at h
    obtain ⟨content', htail, _⟩ := Except.map_eq_ok_iff.1 h
    rw [List.cons_append, List.cons_append, hstep, hstep, ih htail]
  | case7 b rest hq hl hb ih =>
    have hstep (tail : List UInt8) : textBytes (b :: tail) =
        ⟨(textBytes tail).outcome.map (b :: ·), (textBytes tail).size + 1⟩ := by
      rw [textBytes.eq_def]
      simp only [hq, hl, hb, if_false]
    rw [hstep] at h
    obtain ⟨content', htail, _⟩ := Except.map_eq_ok_iff.1 h
    rw [List.cons_append, hstep, hstep, ih htail]

theorem text_append (h : (text xs).outcome = .ok token) (ys : List UInt8) :
    text (xs ++ ys) = text xs := by
  cases hbytes : (textBytes xs).outcome with
  | ok content => simp only [text, textBytes_append hbytes]
  | error fault => simp [text, hbytes] at h

theorem character_append (h : (character xs).outcome = .ok token) (ys : List UInt8) :
    character (xs ++ ys) = character xs := by
  have hclose (value : UInt8) (covered : Nat) {rest : List UInt8}
      (h : (closeCharacter value covered rest).outcome = .ok token) :
      closeCharacter value covered (rest ++ ys) = closeCharacter value covered rest := by
    cases rest with
    | nil => simp [closeCharacter] at h
    | cons b rest => rfl
  cases xs with
  | nil => simp [character] at h
  | cons b rest =>
    simp only [character, List.cons_append] at h ⊢
    split
    · rename_i hb
      rw [if_pos hb] at h
      cases rest with
      | nil => simp at h
      | cons e rest =>
        simp only [List.cons_append] at h ⊢
        cases he : escape? e with
        | none => simp [he] at h
        | some c =>
          rw [he] at h
          exact hclose c 2 h
    · rename_i hb
      rw [if_neg hb] at h
      exact hclose b 1 h

theorem digits_append {radix skipped : Nat} (h : (digits radix skipped xs).size < xs.length)
    (ys : List UInt8) : digits radix skipped (xs ++ ys) = digits radix skipped xs := by
  simp only [digits, run] at h
  have hdrop : (xs ++ ys).drop skipped = xs.drop skipped ++ ys :=
    List.drop_append_of_le_length (by omega)
  have hlt : ((xs.drop skipped).takeWhile continuesName).length < (xs.drop skipped).length := by
    rw [List.length_drop]
    omega
  simp only [digits, run, hdrop, takeWhile_append_of_lt hlt]

theorem number_append (hrest : rest ≠ []) (h : (number b rest).size < rest.length + 1)
    (ys : List UInt8) : number b (rest ++ ys) = number b rest := by
  obtain ⟨c, rest, rfl⟩ := List.exists_cons_of_ne_nil hrest
  have hradix : zeroRadix? (c :: rest ++ ys) = zeroRadix? (c :: rest) := rfl
  simp only [number, hradix] at h ⊢
  split
  · rename_i hb
    rw [if_pos hb] at h
    exact digits_append h ys
  · rename_i hb
    rw [if_neg hb] at h
    split
    · rename_i hr
      rw [hr] at h
      exact digits_append h ys
    · rename_i hr
      rw [hr] at h
      exact digits_append h ys

theorem run_append (h : (run p xs).length < xs.length) (ys : List UInt8) :
    run p (xs ++ ys) = run p xs :=
  takeWhile_append_of_lt h ys

theorem symbol_append (hrest : rest ≠ []) (ys : List UInt8) :
    symbol b (rest ++ ys) = symbol b rest := by
  obtain ⟨c, rest, rfl⟩ := List.exists_cons_of_ne_nil hrest
  rfl

/-- Only two bytes are the end of a line. -/
theorem lex_ne_lineEnd (hb : ¬(b == lineFeed || b == semicolon) = true) (rest : List UInt8) :
    (lex (b :: rest)).outcome ≠ .ok .lineEnd := by
  simp only [lex, if_neg hb, Lexeme.grow, directive, number, digits, text, character, closeCharacter,
    name, symbol]
  grind

/-- Where there are bytes there is no end of the text. -/
theorem lex_ne_fileEnd (b : UInt8) (rest : List UInt8) : (lex (b :: rest)).outcome ≠ .ok .fileEnd := by
  simp only [lex, Lexeme.grow, directive, number, digits, text, character, closeCharacter, name, symbol]
  grind

/-- The end of a line is one byte. -/
theorem of_lex_lineEnd (h : (lex (b :: rest)).outcome = .ok .lineEnd) :
    isSolid b = true ∧ (lex (b :: rest)).size = 1 := by
  have hb : (b == lineFeed || b == semicolon) = true :=
    Decidable.of_not_not fun hb => lex_ne_lineEnd hb rest h
  constructor
  · rw [Bool.or_eq_true, beq_iff_eq, beq_iff_eq] at hb
    rcases hb with rfl | rfl
    · decide
    · decide
  · rw [lex, if_pos hb]

/-- A token that ends before the last byte, or is the end of a line, is the same in a longer text. -/
theorem lex_append (h : (lex (b :: rest)).outcome = .ok token)
    (hsize : (lex (b :: rest)).size < rest.length + 1 ∨ token = .lineEnd) (ys : List UInt8) :
    lex (b :: rest ++ ys) = lex (b :: rest) := by
  rw [List.cons_append]
  by_cases hline : (b == lineFeed || b == semicolon) = true
  · rw [lex, lex, if_pos hline, if_pos hline]
  · have hlt : (lex (b :: rest)).size < rest.length + 1 :=
      hsize.resolve_right fun htoken => lex_ne_lineEnd hline rest (htoken ▸ h)
    -- A token covers its first byte, so there is a second one.
    have hrest : rest ≠ [] := by
      rintro rfl
      have := lex_size_pos b []
      rw [List.length_nil] at hlt
      omega
    simp only [lex, if_neg hline] at h hlt ⊢
    split
    · rename_i hb
      simp only [if_pos hb, Lexeme.grow, directive] at hlt
      simp only [directive, run_append (p := isLetterOrDigit) (by omega : _ < rest.length) ys]
    · rename_i hb
      rw [if_neg hb] at h hlt
      split
      · rename_i hd
        rw [if_pos hd] at hlt
        exact number_append hrest hlt ys
      · rename_i hd
        rw [if_neg hd] at h hlt
        split
        · rename_i hq
          rw [if_pos hq] at h
          rw [text_append h]
        · rename_i hq
          rw [if_neg hq] at h hlt
          split
          · rename_i ha
            rw [if_pos ha] at h
            rw [character_append h]
          · rename_i ha
            rw [if_neg ha] at h hlt
            split
            · rename_i hn
              rw [if_pos hn] at hlt
              simp only [name, ← List.cons_append, run_append hlt]
            · exact symbol_append hrest ys

end Lexer

/-! ## Places -/

/-- Whether a parenthesis follows the name of a macro directly. -/
def Position.Follows (name : String) (place next : Position) : Prop :=
  next.line = place.line ∧ next.column = place.column + name.utf8ByteSize

namespace Place

theorem steps_append (p : Place) (xs ys : List UInt8) : p.steps (xs ++ ys) = (p.steps xs).steps ys :=
  List.foldl_append

theorem steps_of_not_mem (p : Place) {bytes : List UInt8} (h : 0x0A ∉ bytes) :
    p.steps bytes = ⟨p.line, p.column + bytes.length⟩ := by
  induction bytes generalizing p with
  | nil => rfl
  | cons b bytes ih =>
    rw [List.mem_cons, not_or] at h
    have hstep : p.step b = ⟨p.line, p.column + 1⟩ := if_neg (Ne.symm h.1)
    show (p.step b).steps bytes = _
    rw [hstep, ih _ h.2, List.length_cons, Nat.add_assoc, Nat.add_comm 1]

theorem line_le_steps (p : Place) (bytes : List UInt8) : p.line ≤ (p.steps bytes).line := by
  induction bytes generalizing p with
  | nil => exact Nat.le_refl _
  | cons b bytes ih =>
    have hstep : p.line ≤ (p.step b).line := by
      unfold step
      split
      · exact Nat.le_succ _
      · exact Nat.le_refl _
    exact Nat.le_trans hstep (ih (p.step b))

theorem line_lt_steps (p : Place) {bytes : List UInt8} (h : 0x0A ∈ bytes) :
    p.line < (p.steps bytes).line := by
  obtain ⟨before, after, rfl⟩ := List.append_of_mem h
  have hbefore := line_le_steps p before
  have hafter := line_le_steps ((p.steps before).step 0x0A) after
  rw [steps_append]
  exact Nat.lt_of_le_of_lt hbefore hafter

/-- How much further some bytes lead does not depend on where they start. -/
theorem steps_iff (p q : Place) (bytes : List UInt8) (size : Nat) :
    (p.steps bytes).line = p.line ∧ (p.steps bytes).column = p.column + size ↔
      (q.steps bytes).line = q.line ∧ (q.steps bytes).column = q.column + size := by
  by_cases h : 0x0A ∈ bytes
  · have hp := line_lt_steps p h
    have hq := line_lt_steps q h
    omega
  · rw [steps_of_not_mem p h, steps_of_not_mem q h]
    dsimp only
    omega

end Place

namespace TextStream

/-! ## The next token -/

variable {s t : TextStream} {limit : Nat}

/-- More text behind what is read next changes nothing about it. -/
theorem advance_append {token : Token} (h : s.advance.1 = .ok token) (htoken : token ≠ .fileEnd)
    (hmore : s.advance.2.rest ≠ [] ∨ token = .lineEnd) (ys : List UInt8) :
    ({ s with rest := s.rest ++ ys } : TextStream).advance =
      (.ok token, { s.advance.2 with rest := s.advance.2.rest ++ ys }) := by
  cases hclosed : (Lexer.gap s.rest).unclosed with
  | true => simp [advance, hclosed] at h
  | false =>
    cases hdrop : s.rest.drop (Lexer.gap s.rest).size with
    | nil =>
      simp only [advance, hclosed, hdrop, Lexer.lex] at h
      exact absurd (Except.ok.inj h).symm htoken
    | cons b rest =>
      simp only [advance, hclosed, hdrop, Bool.false_eq_true, if_false] at h hmore ⊢
      have hpos := Lexer.lex_size_pos b rest
      have hsize : (Lexer.lex (b :: rest)).size < rest.length + 1 ∨ token = .lineEnd := by
        refine hmore.imp_left fun hne => ?_
        have := List.length_pos_iff.2 hne
        rw [List.length_drop, List.length_cons] at this
        omega
      have hle : (Lexer.lex (b :: rest)).size ≤ (b :: rest).length ∧
          (rest ≠ [] ∨ Lexer.isSolid b = true) := by
        rw [List.length_cons]
        rcases hsize with hlt | rfl
        · refine ⟨Nat.le_of_lt hlt, .inl (List.ne_nil_of_length_pos ?_)⟩
          omega
        · obtain ⟨hsolid, hone⟩ := Lexer.of_lex_lineEnd h
          exact ⟨by omega, .inr hsolid⟩
      have hgap : Lexer.gap (s.rest ++ ys) = Lexer.gap s.rest :=
        Lexer.gap_append hclosed hdrop hle.2 ys
      have hin : (Lexer.gap s.rest).size ≤ s.rest.length := by
        have := congrArg List.length hdrop
        rw [List.length_drop, List.length_cons] at this
        omega
      have hbytes : (s.rest ++ ys).drop (Lexer.gap s.rest).size = b :: rest ++ ys := by
        rw [List.drop_append_of_le_length hin, hdrop]
      simp only [hgap, hclosed, hbytes, Lexer.lex_append h hsize, h, Bool.false_eq_true, if_false,
        List.take_append_of_le_length hin, List.take_append_of_le_length hle.1,
        List.drop_append_of_le_length hle.1]

/-- Where a text stands only matters for the place of its next token and of what follows it. -/
theorem advance_moved (h : s.rest = t.rest) :
    s.advance.1 = t.advance.1 ∧ s.advance.2.rest = t.advance.2.rest ∧
      s.advance.2.held = t.advance.2.held ∧
      ∃ before within, s.advance.2.start = s.place.steps before ∧
        t.advance.2.start = t.place.steps before ∧
        s.advance.2.place = s.advance.2.start.steps within ∧
        t.advance.2.place = t.advance.2.start.steps within := by
  unfold advance
  rw [h]
  dsimp only
  split
  · exact ⟨rfl, rfl, rfl, _, _, rfl, rfl, rfl, rfl⟩
  · exact ⟨rfl, rfl, rfl, _, _, rfl, rfl, rfl, rfl⟩

theorem file_advance (s : TextStream) : s.advance.2.file = s.file := by
  unfold advance
  dsimp only
  split
  · rfl
  · rfl

/-! ## The rounds ahead -/

/-- The rounds before the end of the text. -/
def ahead (s : TextStream) : List Round :=
  if _h : Reading.isToken .fileEnd s.peek.1 then []
  else ⟨s.peek.1, s.peek.2.position⟩ :: s.peek.2.eat.ahead
termination_by s.remaining
decreasing_by exact s.remaining_eat_lt (by simpa using _h)

theorem ahead_of_fileEnd (h : s.peek.1 = .ok .fileEnd) : s.ahead = [] := by
  rw [ahead, dif_pos ((Reading.isToken_iff _ _).2 h)]

theorem ahead_of_ne (h : s.peek.1 ≠ .ok .fileEnd) :
    s.ahead = ⟨s.peek.1, s.peek.2.position⟩ :: s.peek.2.eat.ahead := by
  rw [ahead, dif_neg fun hend => h ((Reading.isToken_iff _ _).1 hend)]

/-- Nothing but the bytes and their place is read. -/
theorem ahead_congr (hs : s.held = none) (ht : t.held = none) (hfile : s.file = t.file)
    (hrest : s.rest = t.rest) (hplace : s.place = t.place) : s.ahead = t.ahead := by
  have hpeek : s.peek = t.peek := by
    obtain ⟨file, rest, place, start, held⟩ := s
    obtain ⟨file', rest', place', start', held'⟩ := t
    obtain rfl : held = none := hs
    obtain rfl : held' = none := ht
    obtain rfl : file = file' := hfile
    obtain rfl : rest = rest' := hrest
    obtain rfl : place = place' := hplace
    rfl
  rw [ahead, ahead.eq_def t, hpeek]

/-- The rounds of a text by another name. -/
theorem ahead_inFile (s : TextStream) (name : String) :
    ({ s with file := name } : TextStream).ahead =
      s.ahead.map fun r => ⟨r.outcome, { r.position with file := name }⟩ := by
  have hpeek : ({ s with file := name } : TextStream).peek =
      (s.peek.1, { s.peek.2 with file := name }) := by
    obtain ⟨file, rest, place, start, held⟩ := s
    cases held with
    | some token => rfl
    | none =>
      unfold peek advance
      dsimp only
      split
      · rfl
      · rfl
  by_cases hend : s.peek.1 = .ok .fileEnd
  · rw [ahead_of_fileEnd hend, ahead_of_fileEnd (by rw [hpeek, hend])]
    rfl
  · have ih := ahead_inFile s.peek.2.eat name
    rw [ahead_of_ne hend, ahead_of_ne (by rwa [hpeek]), hpeek, List.map_cons, ← ih]
    rfl
termination_by s.remaining
decreasing_by exact s.remaining_eat_lt hend

/-- Rounds with the same outcomes, in which parentheses that follow a name directly are the same. -/
def Paced : List Round → List Round → Prop
  | [], [] => True
  | a :: as, b :: bs =>
    a.outcome = b.outcome ∧
      (∀ name a' b', as.head? = some a' → bs.head? = some b' →
        (Position.Follows name a.position a'.position ↔ Position.Follows name b.position b'.position)) ∧
      Paced as bs
  | _, _ => False

/-- The first round of a text stands where some bytes lead, the same ones wherever the text stands. -/
def Starts (s t : TextStream) : Prop :=
  ∀ a b, s.ahead.head? = some a → t.ahead.head? = some b →
    ∃ bytes, a.position = (s.place.steps bytes).inFile s.file ∧
      b.position = (t.place.steps bytes).inFile t.file

/-- The same bytes give the same rounds at any place. -/
theorem paced_of_rest {s t : TextStream} (hs : s.held = none) (ht : t.held = none)
    (h : s.rest = t.rest) : Paced s.ahead t.ahead ∧ s.Starts t := by
  have hs' : s.peek = s.advance := by rw [peek, hs]
  have ht' : t.peek = t.advance := by rw [peek, ht]
  obtain ⟨houtcome, hrest, _, before, within, hstart, hstart', hplace, hplace'⟩ := advance_moved h
  by_cases hend : s.peek.1 = .ok .fileEnd
  · have hend' : t.peek.1 = .ok .fileEnd := by rw [ht', ← houtcome, ← hs', hend]
    refine ⟨?_, fun a b ha => ?_⟩
    · rw [ahead_of_fileEnd hend, ahead_of_fileEnd hend']
      trivial
    · rw [ahead_of_fileEnd hend] at ha
      simp at ha
  · have hend' : t.peek.1 ≠ .ok .fileEnd := by rwa [ht', ← houtcome, ← hs']
    obtain ⟨hpaced, hstarts⟩ :=
      paced_of_rest (s := s.peek.2.eat) (t := t.peek.2.eat) rfl rfl (by rw [hs', ht']; exact hrest)
    rw [← hs'] at hstart hplace houtcome
    rw [← ht'] at hstart' hplace' houtcome
    have hfile : s.peek.2.file = s.file := hs' ▸ file_advance s
    have hfile' : t.peek.2.file = t.file := ht' ▸ file_advance t
    refine ⟨?_, fun a b ha hb => ?_⟩
    · rw [ahead_of_ne hend, ahead_of_ne hend']
      refine ⟨houtcome, fun name a b ha hb => ?_, hpaced⟩
      -- From the start of the token to that of the next one it is the same bytes.
      obtain ⟨bytes, hposition, hposition'⟩ := hstarts a b ha hb
      have hsteps := Place.steps_iff s.peek.2.start t.peek.2.start (within ++ bytes) name.utf8ByteSize
      rw [Place.steps_append, Place.steps_append, ← hplace, ← hplace'] at hsteps
      rw [hposition, hposition']
      exact hsteps
    · rw [ahead_of_ne hend] at ha
      rw [ahead_of_ne hend'] at hb
      obtain rfl := Option.some.inj ha
      obtain rfl := Option.some.inj hb
      refine ⟨before, ?_, ?_⟩
      · rw [← hstart, ← hfile]
        rfl
      · rw [← hstart', ← hfile']
        rfl
termination_by s.remaining
decreasing_by exact s.remaining_eat_lt hend

/-! ## Whole lines -/

/-- What was read and what is left make up the bytes. -/
theorem advance_covers (s : TextStream) :
    ∃ covered, s.rest = covered ++ s.advance.2.rest ∧ s.advance.2.place = s.place.steps covered := by
  unfold advance
  dsimp only
  split
  · exact ⟨s.rest, by simp, by rw [← Place.steps_append, List.take_append_drop]⟩
  · refine ⟨s.rest.take (Lexer.gap s.rest).size ++ (s.rest.drop (Lexer.gap s.rest).size).take
      (Lexer.lex (s.rest.drop (Lexer.gap s.rest).size)).size, ?_, ?_⟩
    · rw [List.append_assoc, List.take_append_drop, List.take_append_drop]
    · rw [Place.steps_append]

theorem rest_of_fileEnd (h : s.advance.1 = .ok .fileEnd) : s.advance.2.rest = [] := by
  unfold advance at h ⊢
  dsimp only at h ⊢
  split
  · rfl
  · rename_i hclosed
    rw [if_neg hclosed] at h
    cases hbytes : s.rest.drop (Lexer.gap s.rest).size with
    | nil => rfl
    | cons b rest =>
      rw [hbytes] at h
      exact absurd h (Lexer.lex_ne_fileEnd b rest)

/-- The tokens of a text all of which can be read and the last of which is the end of a line, at most
    `limit` of them. -/
def tokensWithin? : (limit : Nat) → List UInt8 → Option (List Token)
  | 0, _ => none
  | _ + 1, [] => some []
  | limit + 1, b :: bytes =>
    let (outcome, next) := (ofBytes "" (b :: bytes)).advance
    match outcome with
    | .ok token =>
      if next.rest = [] ∧ token ≠ .lineEnd then none
      else (tokensWithin? limit next.rest).map (token :: ·)
    | .error _ => none

/-- The tokens of a text of whole lines. -/
def lineTokens? (bytes : List UInt8) : Option (List Token) := tokensWithin? (bytes.length + 1) bytes

/-- A token that was looked at is held, and a fault is not. -/
theorem held_peek (s : TextStream) : s.peek.2.held = s.peek.1.toOption := by
  unfold peek
  split
  · rename_i hheld
    exact hheld
  · unfold advance
    dsimp only
    split
    · rfl
    · rfl

theorem peek_of_held {s : TextStream} {token : Token} (h : s.held = some token) :
    s.peek = (.ok token, s) := by rw [peek, h]

end TextStream

end CartScript
