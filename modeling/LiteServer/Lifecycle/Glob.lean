import LiteServer.Lifecycle.Watcher

/-!
# Patterns of file names

`glob_match` cuts a pattern at its stars, anchors the first and the last piece at the ends of the
name and looks for the others from left to right in what is between. It works on byte offsets: a
slice that starts or ends inside of a character, or behind the end of the text, panics.

Looking for the leftmost occurrence loses nothing, since what follows it has what follows any later
one as a suffix (`Occur.append_left`).

## Main results

* `globMatch_iff` — no slice fails, and a name matches if and only if it is the pieces of the
  pattern with some text in place of each star
* `globMatch_eq` — the matcher on characters, which the watcher's model uses, is the same
-/

namespace LiteServer.Lifecycle.Glob

/-! ### Slices -/

/-- `&s[n..]`. -/
def sliceFrom : Text → ℕ → Option Text
  | s, 0 => some s
  | [], _ + 1 => none
  | c :: s, n + 1 => if c.utf8Size ≤ n + 1 then sliceFrom s (n + 1 - c.utf8Size) else none

/-- `&s[..n]`. -/
def sliceTo : Text → ℕ → Option Text
  | _, 0 => some []
  | [], _ + 1 => none
  | c :: s, n + 1 =>
    if c.utf8Size ≤ n + 1 then (sliceTo s (n + 1 - c.utf8Size)).map (c :: ·) else none

/-- `&s[a..b]`. -/
def slice (s : Text) (a b : ℕ) : Option Text :=
  if a ≤ b then (sliceFrom s a).bind (sliceTo · (b - a)) else none

/-- `str::find`: the offset of the first occurrence. -/
def find (part : Text) : Text → Option ℕ
  | [] => if part.isEmpty then some 0 else none
  | c :: cs =>
    if part.isPrefixOf (c :: cs) then some 0 else (find part cs).map (c.utf8Size + ·)

/-! ### The matcher -/

/-- The loop over the pieces between the first and the last. -/
def search : List Text → Text → Option Bool
  | [], _ => some true
  | part :: parts, rest =>
    if part.isEmpty then search parts rest
    else
      match find part rest with
      | some offset => (sliceFrom rest (offset + byteLen part)).bind (search parts)
      | none => some false

/-- `glob_match`; `none` where an index fails. -/
def globMatch (filename pattern : Text) : Option Bool :=
  if '*' ∉ pattern then some (filename == pattern)
  else
    let parts := pattern.splitOn '*'
    match parts.head?, parts.getLast? with
    | some first, some last =>
      if byteLen filename < byteLen first + byteLen last ∨ ¬ first.isPrefixOf filename ∨
          ¬ last.isSuffixOf filename then some false
      else if parts.length < 2 then none
      else
        (slice filename (byteLen first) (byteLen filename - byteLen last)).bind
          (search parts.tail.dropLast)
    | _, _ => none

/-- A name that is the pieces in order with some text between each two. -/
inductive Written : List Text → Text → Prop
  | last (piece : Text) : Written [piece] piece
  | more (piece fill : Text) {pieces : List Text} {rest : Text} (h : Written pieces rest) :
      Written (piece :: pieces) (piece ++ (fill ++ rest))

/-- The name is in the language of the pattern. -/
def Matches (pattern name : Text) : Prop := Written (pattern.splitOn '*') name

/-! ### Offsets of characters -/

@[simp] theorem byteLen_nil : byteLen [] = 0 := rfl

@[simp] theorem byteLen_cons (c : Char) (s : Text) : byteLen (c :: s) = c.utf8Size + byteLen s := by
  simp [byteLen]

@[simp] theorem byteLen_append (a b : Text) : byteLen (a ++ b) = byteLen a + byteLen b := by
  simp [byteLen]

theorem eq_nil_of_byteLen {s : Text} (h : byteLen s = 0) : s = [] := by
  cases s with
  | nil => rfl
  | cons c s =>
    have hpos := c.utf8Size_pos
    rw [byteLen_cons] at h
    omega

theorem sliceFrom_append (a b : Text) : sliceFrom (a ++ b) (byteLen a) = some b := by
  induction a with
  | nil => cases b <;> rfl
  | cons c a ih =>
    have hpos := c.utf8Size_pos
    obtain ⟨n, hn⟩ := Nat.exists_eq_succ_of_ne_zero (n := c.utf8Size + byteLen a) (by omega)
    rw [byteLen_cons, hn, List.cons_append, sliceFrom, if_pos (by omega),
      show n + 1 - c.utf8Size = byteLen a by omega, ih]

theorem sliceTo_append (a b : Text) : sliceTo (a ++ b) (byteLen a) = some a := by
  induction a with
  | nil => cases b <;> rfl
  | cons c a ih =>
    have hpos := c.utf8Size_pos
    obtain ⟨n, hn⟩ := Nat.exists_eq_succ_of_ne_zero (n := c.utf8Size + byteLen a) (by omega)
    rw [byteLen_cons, hn, List.cons_append, sliceTo, if_pos (by omega),
      show n + 1 - c.utf8Size = byteLen a by omega, ih]
    rfl

theorem slice_append (a b c : Text) :
    slice (a ++ (b ++ c)) (byteLen a) (byteLen (a ++ (b ++ c)) - byteLen c) = some b := by
  have hend : byteLen (a ++ (b ++ c)) - byteLen c = byteLen a + byteLen b := by
    simp only [byteLen_append]
    omega
  rw [slice, hend, if_pos (Nat.le_add_right _ _), sliceFrom_append, Option.bind_some,
    Nat.add_sub_cancel_left, sliceTo_append]

/-! ### The first occurrence -/

/-- What `find` finds: it and the search on characters agree, and the occurrence is the first. -/
theorem find_spec {part : Text} (hne : part ≠ []) (rest : Text) :
    (∃ before after, rest = before ++ (part ++ after) ∧ find part rest = some (byteLen before) ∧
        afterFirst part rest = some after ∧
        ∀ b a, rest = b ++ (part ++ a) → ∃ x, after = x ++ a) ∨
      find part rest = none ∧ afterFirst part rest = none ∧ ∀ b a, rest ≠ b ++ (part ++ a) := by
  induction rest with
  | nil =>
    refine .inr ⟨by simp [find, hne], by simp [afterFirst, hne], fun b a h => ?_⟩
    simp [hne] at h
  | cons c cs ih =>
    by_cases hprefix : part.isPrefixOf (c :: cs) = true
    · obtain ⟨after, hafter⟩ := List.isPrefixOf_iff_prefix.mp hprefix
      refine .inl ⟨[], after, hafter.symm, by simp [find, hprefix], ?_, fun b a h => ?_⟩
      · rw [afterFirst, if_pos hprefix, ← hafter, List.drop_left]
      · -- what follows a later occurrence is a suffix of what follows the first
        refine ⟨(b ++ part).drop part.length, ?_⟩
        rw [← List.drop_append_of_le_length (by simp), List.append_assoc, ← h, ← hafter,
          List.drop_left]
    · have hlater : ∀ b a, c :: cs = b ++ (part ++ a) → ∃ b', b = c :: b' ∧
          cs = b' ++ (part ++ a) := by
        intro b a h
        cases b with
        | nil => exact absurd (List.isPrefixOf_iff_prefix.mpr ⟨a, h.symm⟩) hprefix
        | cons d b =>
          obtain ⟨rfl, hcs⟩ := List.cons.inj h
          exact ⟨b, rfl, hcs⟩
      rcases ih with ⟨before, after, rfl, hfind, hfirst, hleft⟩ | ⟨hfind, hfirst, hnone⟩
      · refine .inl ⟨c :: before, after, rfl, ?_, ?_, fun b a h => ?_⟩
        · simp [find, hprefix, hfind]
        · rw [afterFirst, if_neg hprefix, hfirst]
        · obtain ⟨b', -, hcs⟩ := hlater b a h
          exact hleft b' a hcs
      · refine .inr ⟨by simp [find, hprefix, hfind], ?_, fun b a h => ?_⟩
        · rw [afterFirst, if_neg hprefix, hfirst]
        · obtain ⟨b', -, hcs⟩ := hlater b a h
          exact hnone b' a hcs

/-! ### The pieces between -/

/-- The pieces occur in the text one behind the other. -/
inductive Occur : List Text → Text → Prop
  | nil (rest : Text) : Occur [] rest
  | cons (fill part : Text) {parts : List Text} {rest : Text} (h : Occur parts rest) :
      Occur (part :: parts) (fill ++ (part ++ rest))

theorem Occur.append_left {parts : List Text} {rest : Text} (h : Occur parts rest) (x : Text) :
    Occur parts (x ++ rest) := by
  cases h with
  | nil => exact .nil _
  | cons fill part h =>
    rw [← List.append_assoc]
    exact .cons (x ++ fill) part h

theorem occur_cons {part : Text} {parts : List Text} {rest : Text} :
    Occur (part :: parts) rest ↔
      ∃ fill after, rest = fill ++ (part ++ after) ∧ Occur parts after := by
  constructor
  · rintro ⟨⟩
    exact ⟨_, _, rfl, ‹_›⟩
  · rintro ⟨fill, after, rfl, h⟩
    exact .cons fill part h

/-- **Greedy search is complete.** -/
theorem segmentsOccur_iff (parts : List Text) (rest : Text) :
    segmentsOccur parts rest = true ↔ Occur parts rest := by
  induction parts generalizing rest with
  | nil => simp [segmentsOccur, Occur.nil]
  | cons part parts ih =>
    rw [segmentsOccur, occur_cons]
    by_cases hempty : part = []
    · subst hempty
      rw [if_pos List.isEmpty_nil, ih]
      constructor
      · exact fun h => ⟨[], rest, rfl, h⟩
      · rintro ⟨fill, after, rfl, h⟩
        exact h.append_left fill
    · rw [if_neg (by simpa using hempty)]
      rcases find_spec hempty rest with ⟨before, after, hrest, -, hfirst, hleft⟩ |
        ⟨-, hfirst, hnone⟩
      · rw [hfirst]
        dsimp only
        rw [ih]
        constructor
        · exact fun h => ⟨before, after, hrest, h⟩
        · rintro ⟨fill, later, hlater, h⟩
          obtain ⟨x, rfl⟩ := hleft fill later hlater
          exact h.append_left x
      · rw [hfirst]
        dsimp only
        constructor
        · exact fun h => absurd h Bool.false_ne_true
        · rintro ⟨fill, after, hrest, -⟩
          exact absurd hrest (hnone fill after)

theorem search_eq (parts : List Text) (rest : Text) :
    search parts rest = some (segmentsOccur parts rest) := by
  induction parts generalizing rest with
  | nil => rfl
  | cons part parts ih =>
    rw [search, segmentsOccur]
    by_cases hempty : part = []
    · subst hempty
      rw [if_pos List.isEmpty_nil, if_pos List.isEmpty_nil, ih]
    · rw [if_neg (by simpa using hempty), if_neg (by simpa using hempty)]
      rcases find_spec hempty rest with ⟨before, after, rfl, hfind, hfirst, -⟩ | ⟨hfind, hfirst, -⟩
      · rw [hfind, hfirst]
        dsimp only
        rw [← byteLen_append, ← List.append_assoc, sliceFrom_append, Option.bind_some, ih]
      · rw [hfind, hfirst]

/-! ### The whole pattern -/

theorem written_iff (first last : Text) (mids : List Text) (name : Text) :
    Written (first :: (mids ++ [last])) name ↔
      ∃ window, name = first ++ (window ++ last) ∧ Occur mids window := by
  induction mids generalizing first name with
  | nil =>
    constructor
    · rintro ⟨⟩
      rename_i fill rest h
      cases h with
      | last => exact ⟨fill, rfl, .nil _⟩
      | more piece fill' h => cases h
    · rintro ⟨window, rfl, -⟩
      exact .more first window (.last last)
  | cons mid mids ih =>
    constructor
    · rintro ⟨⟩
      rename_i fill rest h
      obtain ⟨window, rfl, hoccur⟩ := (ih mid rest).mp h
      exact ⟨fill ++ (mid ++ window), by simp, .cons fill mid hoccur⟩
    · rintro ⟨window, rfl, hoccur⟩
      obtain ⟨fill, after, rfl, hafter⟩ := occur_cons.mp hoccur
      have hrest := (ih mid (mid ++ (after ++ last))).mpr ⟨after, rfl, hafter⟩
      simpa using Written.more first fill hrest

/-- A pattern with a star has a first and a last piece. -/
theorem exists_pieces {pattern : Text} (h : '*' ∈ pattern) :
    ∃ first mids last, pattern.splitOn '*' = first :: (mids ++ [last]) := by
  obtain ⟨before, after, rfl⟩ := List.append_of_mem h
  rw [List.splitOn_append_cons_self]
  obtain ⟨first, heads, hfirst⟩ :=
    List.exists_cons_of_ne_nil (List.splitOn_ne_nil '*' before)
  refine ⟨first, heads ++ (after.splitOn '*').dropLast,
    (after.splitOn '*').getLast (List.splitOn_ne_nil '*' after), ?_⟩
  rw [hfirst, List.cons_append, List.append_assoc, List.dropLast_append_getLast]

/-- The two ends do not overlap if they fit beside one another, in bytes or in characters. -/
theorem framed_iff (size : Text → ℕ) (happend : ∀ a b, size (a ++ b) = size a + size b)
    (hzero : ∀ a, size a = 0 → a = []) (name first last : Text) :
    ¬ (size name < size first + size last ∨ ¬ first.isPrefixOf name ∨
        ¬ last.isSuffixOf name) ↔ ∃ window, name = first ++ (window ++ last) := by
  simp only [not_or, not_lt, not_not, List.isPrefixOf_iff_prefix, List.isSuffixOf_iff_suffix]
  constructor
  · rintro ⟨hsize, ⟨t, rfl⟩, ⟨u, hu⟩⟩
    rcases List.append_eq_append_iff.mp hu with ⟨a, rfl, rfl⟩ | ⟨a, rfl, rfl⟩
    · -- the last piece reaches into the first
      have hempty : a = [] := by
        refine hzero a ?_
        simp only [happend] at hsize
        omega
      exact ⟨[], by simp [hempty]⟩
    · exact ⟨a, by simp⟩
  · rintro ⟨window, rfl⟩
    refine ⟨?_, ⟨_, rfl⟩, ⟨first ++ window, by simp⟩⟩
    simp only [happend]
    omega

theorem getLast?_pieces (first last : Text) (mids : List Text) :
    (first :: (mids ++ [last])).getLast? = some last := by
  rw [← List.cons_append]
  exact List.getLast?_concat

theorem framed_byteLen (name first last : Text) :
    ¬ (byteLen name < byteLen first + byteLen last ∨ ¬ first.isPrefixOf name ∨
        ¬ last.isSuffixOf name) ↔ ∃ window, name = first ++ (window ++ last) :=
  framed_iff byteLen byteLen_append (fun _ => eq_nil_of_byteLen) name first last

theorem framed_length (name first last : Text) :
    ¬ (name.length < first.length + last.length ∨ ¬ first.isPrefixOf name ∨
        ¬ last.isSuffixOf name) ↔ ∃ window, name = first ++ (window ++ last) :=
  framed_iff List.length (fun _ _ => List.length_append) (fun _ => List.eq_nil_of_length_eq_zero)
    name first last

section

variable {pattern first last : Text} {mids : List Text}
  (hstar : '*' ∈ pattern) (hpieces : pattern.splitOn '*' = first :: (mids ++ [last]))

include hstar hpieces

theorem globMatch_framed (window : Text) :
    globMatch (first ++ (window ++ last)) pattern = some (segmentsOccur mids window) := by
  have hframed := (framed_byteLen (first ++ (window ++ last)) first last).mpr ⟨window, rfl⟩
  have hlast := getLast?_pieces first last mids
  have hmids : (first :: (mids ++ [last])).tail.dropLast = mids := by simp
  have hlength : ¬ (first :: (mids ++ [last])).length < 2 := by simp
  rw [globMatch, if_neg (not_not.mpr hstar), hpieces]
  simp only [List.head?_cons, hlast]
  rw [if_neg hframed, if_neg hlength, slice_append, hmids, Option.bind_some, search_eq]

theorem globMatch_unframed {name : Text} (h : ¬ ∃ window, name = first ++ (window ++ last)) :
    globMatch name pattern = some false := by
  have hlast := getLast?_pieces first last mids
  rw [globMatch, if_neg (not_not.mpr hstar), hpieces]
  simp only [List.head?_cons, hlast]
  exact if_pos (not_not.mp (mt (framed_byteLen name first last).mp h))

end

/-- **`glob_match` decides the language of its pattern**, and no index fails. -/
theorem globMatch_iff (name pattern : Text) :
    (globMatch name pattern).isSome = true ∧
      (globMatch name pattern = some true ↔ Matches pattern name) := by
  by_cases hstar : '*' ∈ pattern
  · obtain ⟨first, mids, last, hpieces⟩ := exists_pieces hstar
    rw [Matches, hpieces, written_iff]
    by_cases hframed : ∃ window, name = first ++ (window ++ last)
    · obtain ⟨window, rfl⟩ := hframed
      rw [globMatch_framed hstar hpieces, Option.some.injEq, segmentsOccur_iff]
      refine ⟨rfl, fun h => ⟨window, rfl, h⟩, ?_⟩
      rintro ⟨window', heq, h⟩
      obtain rfl := List.append_cancel_right (List.append_cancel_left heq)
      exact h
    · rw [globMatch_unframed hstar hpieces hframed]
      refine ⟨rfl, ⟨fun h => absurd (Option.some.inj h) Bool.false_ne_true, ?_⟩⟩
      rintro ⟨window, heq, -⟩
      exact absurd ⟨window, heq⟩ hframed
  · have hpiece : pattern.splitOn '*' = [pattern] :=
      List.splitOnP_eq_singleton fun c hc => by
        simp only [beq_eq_false_iff_ne]
        rintro rfl
        exact hstar hc
    rw [globMatch, if_pos hstar, Matches, hpiece]
    refine ⟨rfl, ?_⟩
    rw [Option.some.injEq, beq_iff_eq]
    constructor
    · rintro rfl
      exact .last name
    · rintro ⟨⟩
      · rfl
      · rename_i h
        cases h

/-- The matcher on characters is the same. -/
theorem globMatch_eq (name pattern : Text) :
    globMatch name pattern = some (Lifecycle.globMatch name pattern) := by
  by_cases hstar : '*' ∈ pattern
  · obtain ⟨first, mids, last, hpieces⟩ := exists_pieces hstar
    have hlast : (first :: (mids ++ [last])).getLastD [] = last := by
      rw [List.getLastD_eq_getLast?, getLast?_pieces, Option.getD_some]
    have hmids : (first :: (mids ++ [last])).tail.dropLast = mids := by simp
    rw [Lifecycle.globMatch, if_neg (not_not.mpr hstar), hpieces]
    simp only [List.headD_cons, hlast, hmids]
    by_cases hframed : ∃ window, name = first ++ (window ++ last)
    · obtain ⟨window, rfl⟩ := hframed
      have hfits := (framed_length (first ++ (window ++ last)) first last).mpr ⟨window, rfl⟩
      have hwindow : ((first ++ (window ++ last)).drop first.length).take
          ((first ++ (window ++ last)).length - first.length - last.length) = window := by
        rw [List.drop_left, show (first ++ (window ++ last)).length - first.length - last.length =
          window.length by simp, List.take_left]
      rw [globMatch_framed hstar hpieces, if_neg hfits, hwindow]
    · rw [globMatch_unframed hstar hpieces hframed,
        if_pos (not_not.mp (mt (framed_length name first last).mp hframed))]
  · rw [globMatch, Lifecycle.globMatch, if_pos hstar, if_pos hstar]

end LiteServer.Lifecycle.Glob
