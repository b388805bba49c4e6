import LiteServer.Message
import Mathlib.Algebra.Order.Ring.Nat
import Mathlib.Data.List.Forall2
import Mathlib.Data.List.Infix

/-!
# The lines of a worker's standard error

`read_stderr_line_bounded` reads one line of a stream that arrives in pieces. It takes at most one
byte more than the cap, and a line that has not ended by then is cut, marked, and read to its end
into a second buffer.

How the pieces are cut does not matter (`readUntil_spec`), and the calls stand for the lines, one
each (`logger_spec`). Two things are not as they should be. A last line without newline is marked as
cut however short it is. And the second buffer takes the rest of a line whole, so that the two
buffers together are bounded by the longest line only.

## Main results

* `readStderrLineBounded_spec` — one call
* `logger_spec` — the calls on a stream, one for each line
* `lossless_iff` — the streams that are read without loss and within the bound
-/

namespace LiteServer.Worker.Stderr

/-- The byte that ends a line. -/
def newline : UInt8 := 10

/-- `...[truncated]`. -/
def marker : Bytes := "...[truncated]".toList.map fun c => UInt8.ofNat c.toNat

/-! ### Reading -/

/-- The bytes up to the first newline, with it. -/
def through : Bytes → Bytes
  | [] => []
  | b :: s => if b = newline then [b] else b :: through s

/-- The part of a piece that a limited reader shows. -/
def shown (limit : Option ℕ) (piece : Bytes) : Bytes := (limit.map piece.take).getD piece

/-- `read_until` on a reader that gets the pieces one after the other: what the buffer is extended
by, piece by piece, and what is left. -/
def readUntil (limit : Option ℕ) : List Bytes → List Bytes × List Bytes
  | [] => ([], [])
  | piece :: pieces =>
    let available := shown limit piece
    if newline ∈ available then
      ([through available], piece.drop (through available).length :: pieces)
    else if available.length < piece.length then
      ([available], piece.drop available.length :: pieces)
    else
      let more := readUntil (limit.map (· - available.length)) pieces
      (available :: more.1, more.2)

/-- The rounds of the loop that reads the rest of a line, each with what its scratch buffer is
extended by. -/
def discard : ℕ → List Bytes → List (List Bytes) × List Bytes
  | 0, pieces => ([], pieces)
  | fuel + 1, pieces =>
    let read := readUntil none pieces
    if read.1.flatten = [] ∨ read.1.flatten.getLast? = some newline then ([read.1], read.2)
    else
      let more := discard fuel read.2
      (read.1 :: more.1, more.2)

/-- The lengths of a buffer, from empty to full. -/
def sizes (parts : List Bytes) : List ℕ := parts.inits.map fun front => front.flatten.length

/-- A call: its result, its buffer and what is left to read. -/
structure Call where
  n : ℕ
  buf : Bytes
  rest : List Bytes
  /-- How many bytes the buffers have, at every time of the call. -/
  held : List ℕ

/-- `read_stderr_line_bounded`. -/
def readStderrLineBounded (cap : UInt64) (pieces : List Bytes) : Call :=
  let read := readUntil (some (cap + 1).toNat) pieces
  let buf := read.1.flatten
  if buf = [] then ⟨0, buf, read.2, sizes read.1⟩
  else if buf.getLast? = some newline then ⟨buf.length, buf, read.2, sizes read.1⟩
  else
    let cut := buf.take cap.toNat ++ marker
    let rest := discard (read.2.flatten.length + 1) read.2
    ⟨buf.length, cut, rest.2,
      sizes read.1 ++ rest.1.flatMap fun parts => (sizes parts).map (cut.length + ·)⟩

/-- The calls of the task that logs a worker, up to the one that returns zero. -/
def logger (cap : UInt64) : ℕ → List Bytes → Option (List Call)
  | 0, _ => none
  | fuel + 1, pieces =>
    let call := readStderrLineBounded cap pieces
    if call.n = 0 then some [] else (logger cap fuel call.rest).map (call :: ·)

/-! ### Lines -/

/-- The lines of a stream, and whether a newline ends them. -/
def linesOf : Bytes → List (Bytes × Bool)
  | [] => []
  | b :: s =>
    if b = newline then ([], true) :: linesOf s
    else
      match linesOf s with
      | [] => [([b], false)]
      | line :: lines => (b :: line.1, line.2) :: lines

/-- What should be returned for a line. -/
def expected (cap : UInt64) (line : Bytes × Bool) : Bytes :=
  if line.1.length ≤ cap.toNat then line.1 ++ (if line.2 then [newline] else [])
  else line.1.take cap.toNat ++ marker

/-- The lines come back in order, each as it should, and the buffers never have more than the cap,
the marker and some more bytes. -/
def Lossless (more : ℕ) (cap : UInt64) (pieces : List Bytes) : Prop :=
  ∃ calls, logger cap (pieces.flatten.length + 1) pieces = some calls ∧
    calls.map Call.buf = (linesOf pieces.flatten).map (expected cap) ∧
    ∀ call ∈ calls, ∀ size ∈ call.held, size ≤ cap.toNat + (marker.length + more)

/-! ### One read -/

theorem through_append (s t : Bytes) :
    through (s ++ t) = if newline ∈ s then through s else s ++ through t := by
  induction s with
  | nil => simp
  | cons b s ih =>
    rw [List.cons_append, through, through]
    by_cases hb : b = newline
    · simp [hb]
    · rw [if_neg hb, if_neg hb, ih]
      by_cases hs : newline ∈ s
      · simp [hs]
      · simp [hs, Ne.symm hb]

theorem isPrefix_through (s : Bytes) : through s <+: s := by
  induction s with
  | nil => exact List.prefix_refl _
  | cons b s ih =>
    rw [through]
    split
    · exact ⟨s, rfl⟩
    · exact (List.prefix_cons_inj b).mpr ih

theorem through_take (s : Bytes) (n : ℕ) : through (s.take n) = (through s).take n := by
  induction s generalizing n with
  | nil => simp [through]
  | cons b s ih =>
    cases n with
    | zero => rfl
    | succ n =>
      rw [List.take_succ_cons, through, through]
      split
      · simp
      · rw [ih, List.take_succ_cons]

theorem through_ne_nil {s : Bytes} (h : s ≠ []) : through s ≠ [] := by
  cases s with
  | nil => exact absurd rfl h
  | cons b s =>
    rw [through]
    split <;> exact List.cons_ne_nil _ _

theorem shown_append (limit : Option ℕ) (s t : Bytes) :
    shown limit (s ++ t) = shown limit s ++ shown (limit.map (· - s.length)) t := by
  cases limit with
  | none => rfl
  | some l => exact List.take_append

theorem isPrefix_shown (limit : Option ℕ) (s : Bytes) : shown limit s <+: s := by
  cases limit with
  | none => exact List.prefix_refl _
  | some l => exact List.take_prefix l s

/-- A limit within a piece leaves nothing of what is behind. -/
theorem shown_behind {limit : Option ℕ} {piece : Bytes} (h : (shown limit piece).length <
    piece.length) (s : Bytes) : shown (limit.map (· - piece.length)) s = [] := by
  cases limit with
  | none => exact absurd h (Nat.lt_irrefl _)
  | some l =>
    have hl : l - piece.length = 0 := by
      have hlen : (piece.take l).length < piece.length := h
      rw [List.length_take] at hlen
      omega
    exact (congrArg s.take hl).trans (List.take_zero)

/-- **What one read takes**: the stream up to the limit and up to a newline, however it is cut into
pieces. -/
theorem readUntil_spec (limit : Option ℕ) (pieces : List Bytes) :
    (readUntil limit pieces).1.flatten = through (shown limit pieces.flatten) ∧
      (readUntil limit pieces).1.flatten ++ (readUntil limit pieces).2.flatten =
        pieces.flatten := by
  induction pieces generalizing limit with
  | nil => cases limit <;> simp [readUntil, shown, through]
  | cons piece pieces ih =>
    rw [readUntil, List.flatten_cons, shown_append, through_append]
    by_cases hmem : newline ∈ shown limit piece
    · simp only [if_pos hmem, List.flatten_cons, List.flatten_nil, List.append_nil, true_and]
      have hprefix := (isPrefix_through (shown limit piece)).trans (isPrefix_shown limit piece)
      rw [← List.append_assoc, List.prefix_iff_eq_append.mp hprefix]
    · by_cases hlt : (shown limit piece).length < piece.length
      · simp only [if_neg hmem, if_pos hlt, List.flatten_cons, List.flatten_nil, List.append_nil,
          shown_behind hlt, through, true_and]
        rw [← List.append_assoc, List.prefix_iff_eq_append.mp (isPrefix_shown limit piece)]
      · have hall : shown limit piece = piece :=
          (isPrefix_shown limit piece).eq_of_length_le (Nat.le_of_not_lt hlt)
        obtain ⟨hread, hrest⟩ := ih (limit.map (· - piece.length))
        simp only [if_neg hmem, if_neg hlt, List.flatten_cons]
        rw [hall]
        exact ⟨congrArg (piece ++ ·) hread, by rw [List.append_assoc, hrest]⟩

theorem flatten_rest (limit : Option ℕ) (pieces : List Bytes) :
    (readUntil limit pieces).2.flatten =
      pieces.flatten.drop (through (shown limit pieces.flatten)).length := by
  obtain ⟨hread, hrest⟩ := readUntil_spec limit pieces
  rw [← hread]
  conv_rhs => rw [← hrest]
  rw [List.drop_left]

/-! ### The rest of a line -/

/-- A text that is read to its end ends with the newline, or it has none. -/
theorem getLast_through (s : Bytes) :
    (through s).getLast? = some newline ∨ newline ∉ s ∧ through s = s := by
  induction s with
  | nil => exact .inr ⟨List.not_mem_nil, rfl⟩
  | cons b s ih =>
    rw [through]
    by_cases hb : b = newline
    · simp [hb]
    · rw [if_neg hb]
      rcases ih with hlast | ⟨hmem, hself⟩
      · left
        rw [List.getLast?_cons, hlast]
        rfl
      · right
        exact ⟨by simp [hmem, Ne.symm hb], by rw [hself]⟩

/-- **What is thrown away**: the stream up to a newline, in one round that reads it and at most one
that finds nothing. -/
theorem discard_spec {fuel : ℕ} {pieces : List Bytes} (h : pieces.flatten.length < fuel) :
    ((discard fuel pieces).1 = [(readUntil none pieces).1] ∨
      ∃ parts, parts.flatten = [] ∧
        (discard fuel pieces).1 = [(readUntil none pieces).1, parts]) ∧
    (discard fuel pieces).2.flatten = pieces.flatten.drop (through pieces.flatten).length := by
  have hread : (readUntil none pieces).1.flatten = through pieces.flatten :=
    (readUntil_spec none pieces).1
  have hrest : (readUntil none pieces).2.flatten =
      pieces.flatten.drop (through pieces.flatten).length := flatten_rest none pieces
  cases fuel with
  | zero => exact absurd h (Nat.not_lt_zero _)
  | succ fuel =>
    rw [discard]
    split
    · exact ⟨.inl rfl, hrest⟩
    · rename_i hmore
      rw [hread, not_or] at hmore
      -- the stream is at its end, so the next round finds nothing
      obtain ⟨-, hself⟩ := (getLast_through pieces.flatten).resolve_left hmore.2
      have hnil : (readUntil none pieces).2.flatten = [] := by
        rw [hrest, hself, List.drop_length]
      have hparts : (readUntil none (readUntil none pieces).2).1.flatten = [] := by
        rw [(readUntil_spec none _).1, hnil]
        rfl
      cases fuel with
      | zero =>
        rw [hself] at hmore
        exact absurd (List.length_pos_of_ne_nil hmore.1) (by omega)
      | succ fuel =>
        rw [discard, if_pos (.inl hparts)]
        refine ⟨.inr ⟨_, hparts, rfl⟩, ?_⟩
        rw [flatten_rest, hnil, hself, List.drop_length, List.drop_nil]

/-! ### Lines of a stream -/

/-- The line that a text stands for that ends at the first newline. -/
def lineOf (s : Bytes) : Bytes × Bool :=
  if s.getLast? = some newline then (s.dropLast, true) else (s, false)

theorem linesOf_eq {s : Bytes} (h : s ≠ []) :
    linesOf s = lineOf (through s) :: linesOf (s.drop (through s).length) := by
  induction s with
  | nil => exact absurd rfl h
  | cons b s ih =>
    rw [linesOf, through]
    by_cases hb : b = newline
    · rw [if_pos hb, if_pos hb, hb]
      rfl
    · rw [if_neg hb, if_neg hb, List.length_cons, List.drop_succ_cons]
      cases s with
      | nil =>
        have hlast : ¬ [b].getLast? = some newline := fun hlast => hb (Option.some.inj hlast)
        rw [through, lineOf, if_neg hlast]
        rfl
      | cons b' s =>
        rw [ih (List.cons_ne_nil _ _)]
        have hne := through_ne_nil (List.cons_ne_nil b' s)
        have hlast : (b :: through (b' :: s)).getLast? = (through (b' :: s)).getLast? := by
          rw [List.getLast?_cons_of_ne_nil hne]
        rw [lineOf, lineOf, hlast]
        by_cases hends : (through (b' :: s)).getLast? = some newline
        · simp only [if_pos hends, List.dropLast_cons_of_ne_nil hne]
        · simp only [if_neg hends]

theorem lineOf_append (s : Bytes) :
    (lineOf s).1 ++ (if (lineOf s).2 then [newline] else []) = s := by
  rw [lineOf]
  split
  · rename_i hlast
    exact List.dropLast_append_getLast? newline hlast
  · exact List.append_nil s

/-! ### One call -/

theorem forall_sizes {parts : List Bytes} {k bound : ℕ} :
    (∀ size ∈ sizes parts, k + size ≤ bound) ↔ k + parts.flatten.length ≤ bound := by
  rw [sizes, List.forall_mem_map]
  constructor
  · exact fun h => h parts ((List.mem_inits _ _).mpr (List.prefix_refl _))
  · intro h front hfront
    obtain ⟨back, rfl⟩ := (List.mem_inits _ _).mp hfront
    rw [List.flatten_append, List.length_append] at h
    omega

/-- One buffer is filled, and then a second one several times. -/
theorem forall_held {parts : List Bytes} {rounds : List (List Bytes)} {k bound : ℕ} :
    (∀ size ∈ sizes parts ++ rounds.flatMap fun parts => (sizes parts).map (k + ·),
      size ≤ bound) ↔
      parts.flatten.length ≤ bound ∧ ∀ parts ∈ rounds, k + parts.flatten.length ≤ bound := by
  have hfirst : (∀ size ∈ sizes parts, size ≤ bound) ↔ parts.flatten.length ≤ bound := by
    simpa using @forall_sizes parts 0 bound
  rw [List.forall_mem_append, hfirst]
  refine and_congr_right fun _ => ⟨fun h parts hparts => ?_, fun h size hsize => ?_⟩
  · refine forall_sizes.mp fun size hsize => h _ (List.mem_flatMap.mpr ⟨parts, hparts, ?_⟩)
    exact List.mem_map.mpr ⟨size, hsize, rfl⟩
  · obtain ⟨parts, hparts, hsize⟩ := List.mem_flatMap.mp hsize
    obtain ⟨held, hheld, rfl⟩ := List.mem_map.mp hsize
    exact forall_sizes.mpr (h parts hparts) held hheld

/-- What is returned for a line. -/
def returned (cap : UInt64) (line : Bytes × Bool) : Bytes :=
  if line.2 = true ∧ line.1.length ≤ cap.toNat then line.1 ++ [newline]
  else line.1.take cap.toNat ++ marker

/-- What a call does with a line: what it returns, and when it is within the bound. -/
structure Reads (cap : UInt64) (line : Bytes × Bool) (call : Call) : Prop where
  buf : call.buf = returned cap line
  held : ∀ more, (∀ size ∈ call.held, size ≤ cap.toNat + (marker.length + more)) ↔
    line.1.length + (if line.2 then 1 else 0) ≤ cap.toNat + 1 + more

theorem length_lineOf (s : Bytes) :
    (lineOf s).1.length + (if (lineOf s).2 then 1 else 0) = s.length := by
  conv_rhs => rw [← lineOf_append s]
  rw [List.length_append]
  split <;> rfl

section

variable {cap : UInt64} {pieces : List Bytes}

theorem toNat_succ (h : cap.toNat + 1 < 2 ^ 64) : (cap + 1).toNat = cap.toNat + 1 := by
  rw [UInt64.toNat_add]
  exact Nat.mod_eq_of_lt h

/-- Before the end of a line there is no newline. -/
theorem newline_not_mem_take {s : Bytes} {n : ℕ}
    (h : ((through s).take n).getLast? ≠ some newline) : newline ∉ (through s).take n := by
  rw [← through_take] at h ⊢
  obtain ⟨hmem, hself⟩ := (getLast_through (s.take n)).resolve_left h
  rwa [hself]

theorem take_eq_self {s : Bytes} {n : ℕ}
    (h : ((through s).take n).getLast? = some newline) : (through s).take n = through s := by
  have hmem : newline ∈ s.take n := by
    rw [← through_take] at h
    exact (isPrefix_through _).subset (List.mem_of_getLast? h)
  have hsplit := through_append (s.take n) (s.drop n)
  rw [List.take_append_drop, if_pos hmem, through_take] at hsplit
  exact hsplit.symm

/-- The rest of a line that is cut. -/
theorem through_drop {s : Bytes} {n : ℕ} (h : ((through s).take n).getLast? ≠ some newline) :
    through (s.drop ((through s).take n).length) = (through s).drop n := by
  obtain ⟨t, ht⟩ := (List.take_prefix n (through s)).trans (isPrefix_through s)
  have hsplit := through_append ((through s).take n) t
  rw [ht, if_neg (newline_not_mem_take h)] at hsplit
  have hdrop : s.drop ((through s).take n).length = t :=
    (congrArg (List.drop _) ht.symm).trans List.drop_left
  have hboth : (through s).take n ++ through t = (through s).take n ++ (through s).drop n := by
    rw [← hsplit, List.take_append_drop]
  rw [hdrop]
  exact List.append_cancel_left hboth

/-- What a cut line is returned as. -/
theorem returned_of_cut {u : Bytes}
    (h : (u.take (cap.toNat + 1)).getLast? ≠ some newline) :
    returned cap (lineOf u) = u.take cap.toNat ++ marker := by
  rw [returned, lineOf]
  by_cases hlast : u.getLast? = some newline
  · have hlen : cap.toNat + 1 < u.length := by
      by_contra hle
      rw [List.take_of_length_le (Nat.le_of_not_lt hle)] at h
      exact h hlast
    simp only [if_pos hlast, List.length_dropLast]
    rw [if_neg (by omega), List.dropLast_eq_take, List.take_take, Nat.min_eq_left (by omega)]
  · simp only [if_neg hlast]
    rfl

/-- **One call**: it returns a line, and the next call begins behind it. -/
theorem readStderrLineBounded_spec (hcap : cap.toNat + 1 < 2 ^ 64) (hne : pieces.flatten ≠ []) :
    (readStderrLineBounded cap pieces).n ≠ 0 ∧
    (readStderrLineBounded cap pieces).rest.flatten =
      pieces.flatten.drop (through pieces.flatten).length ∧
    Reads cap (lineOf (through pieces.flatten)) (readStderrLineBounded cap pieces) := by
  obtain ⟨read, hreadUntil⟩ : ∃ read, read = readUntil (some (cap + 1).toNat) pieces := ⟨_, rfl⟩
  obtain ⟨u, hu⟩ : ∃ u, u = through pieces.flatten := ⟨_, rfl⟩
  have hune : u ≠ [] := hu ▸ through_ne_nil hne
  have hread : read.1.flatten = u.take (cap.toNat + 1) := by
    rw [hreadUntil, (readUntil_spec _ _).1, toNat_succ hcap, hu]
    exact through_take _ _
  have hrest : read.2.flatten = pieces.flatten.drop (u.take (cap.toNat + 1)).length := by
    rw [← hread, hreadUntil, flatten_rest, (readUntil_spec _ _).1]
  have htake : u.take (cap.toNat + 1) ≠ [] := by simp [hune]
  rw [← hu]
  by_cases hends : (u.take (cap.toNat + 1)).getLast? = some newline
  · -- the line has ended by then
    have hall : u.take (cap.toNat + 1) = u := hu ▸ take_eq_self (hu ▸ hends)
    have hlen : u.length ≤ cap.toNat + 1 := (List.take_eq_self_iff u).mp hall
    have hcall : readStderrLineBounded cap pieces = ⟨u.length, u, read.2, sizes read.1⟩ := by
      simp only [readStderrLineBounded, ← hreadUntil, hread, if_neg htake, if_pos hends]
      rw [hall]
    have hlast : u.getLast? = some newline := hall ▸ hends
    rw [hcall]
    refine ⟨by simpa using hune, hall ▸ hrest, ?_, fun more => ?_⟩
    · rw [returned, lineOf, if_pos hlast,
        if_pos ⟨rfl, (List.length_dropLast).trans_le (Nat.sub_le_of_le_add hlen)⟩]
      exact (List.dropLast_append_getLast? newline hlast).symm
    · have hheld := @forall_held read.1 [] 0 (cap.toNat + (marker.length + more))
      rw [List.flatMap_nil, List.append_nil, hread, hall] at hheld
      rw [hheld, length_lineOf]
      have hmarker : marker.length = 14 := by decide
      simp only [List.not_mem_nil, false_implies, implies_true, and_true]
      omega
  · -- it has not, and is cut
    obtain ⟨rest, hdiscarded⟩ : ∃ rest, rest = discard (read.2.flatten.length + 1) read.2 :=
      ⟨_, rfl⟩
    have hcall : readStderrLineBounded cap pieces =
        ⟨(u.take (cap.toNat + 1)).length, u.take cap.toNat ++ marker, rest.2, sizes read.1 ++
          rest.1.flatMap fun parts =>
            (sizes parts).map ((u.take cap.toNat ++ marker).length + ·)⟩ := by
      simp only [readStderrLineBounded, ← hreadUntil, hread, if_neg htake, if_neg hends,
        ← hdiscarded]
      rw [List.take_take, Nat.min_eq_left (Nat.le_succ _)]
    obtain ⟨hparts, hbehind⟩ := discard_spec (Nat.lt_succ_self read.2.flatten.length)
    have hscratch : through read.2.flatten = u.drop (cap.toNat + 1) := by
      rw [hrest, hu]
      exact through_drop (hu ▸ hends)
    rw [← hdiscarded] at hparts hbehind
    rw [hcall]
    refine ⟨by simpa using hune, ?_, (returned_of_cut hends).symm, fun more => ?_⟩
    · change rest.2.flatten = _
      rw [hbehind, hscratch, hrest, List.drop_drop, ← List.length_append, List.take_append_drop]
    · have hrounds : (∀ parts ∈ rest.1, (u.take cap.toNat ++ marker).length + parts.flatten.length ≤
          cap.toNat + (marker.length + more)) ↔
          (u.take cap.toNat ++ marker).length + (u.drop (cap.toNat + 1)).length ≤
            cap.toNat + (marker.length + more) := by
        have hfirst : (readUntil none read.2).1.flatten = u.drop (cap.toNat + 1) :=
          (readUntil_spec none read.2).1.trans hscratch
        rcases hparts with hone | ⟨parts, hnil, htwo⟩
        · rw [hone, List.forall_mem_singleton, hfirst]
        · rw [htwo, List.forall_mem_cons, List.forall_mem_singleton, hfirst, hnil]
          exact and_iff_left_of_imp (Nat.le_trans (Nat.le_add_right _ _))
      rw [forall_held, hrounds, hread, length_lineOf]
      simp only [List.length_append, List.length_take, List.length_drop]
      have hmarker : marker.length = 14 := by decide
      omega

theorem readStderrLineBounded_nil (h : pieces.flatten = []) :
    (readStderrLineBounded cap pieces).n = 0 := by
  have hread : (readUntil (some (cap + 1).toNat) pieces).1.flatten = [] := by
    rw [(readUntil_spec _ _).1, h]
    simp [shown, through]
  rw [readStderrLineBounded, if_pos hread]

/-- The limit of the largest cap is zero. -/
theorem readStderrLineBounded_overflow (h : ¬ cap.toNat + 1 < 2 ^ 64) :
    (readStderrLineBounded cap pieces).n = 0 := by
  have hzero : (cap + 1).toNat = 0 := by
    have hlt := cap.toNat_lt
    rw [UInt64.toNat_add, show cap.toNat + (1 : UInt64).toNat = 2 ^ 64 from by
      change cap.toNat + 1 = 2 ^ 64
      omega]
    rfl
  have hread : (readUntil (some (cap + 1).toNat) pieces).1.flatten = [] := by
    rw [(readUntil_spec _ _).1, hzero]
    rfl
  rw [readStderrLineBounded, if_pos hread]

/-! ### A stream -/

/-- **The calls on a stream**, one for each line. -/
theorem logger_spec (hcap : cap.toNat + 1 < 2 ^ 64) {fuel : ℕ} (h : pieces.flatten.length < fuel) :
    ∃ calls, logger cap fuel pieces = some calls ∧
      List.Forall₂ (Reads cap) (linesOf pieces.flatten) calls := by
  induction fuel generalizing pieces with
  | zero => exact absurd h (Nat.not_lt_zero _)
  | succ fuel ih =>
    rw [logger]
    by_cases hne : pieces.flatten = []
    · rw [if_pos (readStderrLineBounded_nil hne), hne]
      exact ⟨[], rfl, .nil⟩
    · obtain ⟨hn, hrest, hreads⟩ := readStderrLineBounded_spec hcap hne
      have hpos := List.length_pos_of_ne_nil (through_ne_nil hne)
      have hless : (readStderrLineBounded cap pieces).rest.flatten.length < fuel := by
        have hstream := List.length_pos_of_ne_nil hne
        rw [hrest, List.length_drop]
        omega
      obtain ⟨calls, hcalls, hlines⟩ := ih hless
      rw [if_neg hn, hcalls, linesOf_eq hne]
      exact ⟨_, rfl, .cons hreads (hrest ▸ hlines)⟩

theorem returned_eq_expected (line : Bytes × Bool) :
    returned cap line = expected cap line ↔ line.2 = true ∨ cap.toNat < line.1.length := by
  rw [returned, expected]
  by_cases hlen : line.1.length ≤ cap.toNat
  · cases hline : line.2 with
    | true => simp [hlen]
    | false =>
      rw [if_neg (by simp), if_pos hlen, List.take_of_length_le hlen]
      refine iff_of_false (fun heq => ?_) (by simp; omega)
      have hmarker := List.append_cancel_left heq
      exact absurd hmarker (by decide)
  · rw [if_neg fun h => hlen h.2, if_neg hlen]
    exact iff_of_true rfl (.inr (Nat.lt_of_not_le hlen))

theorem map_buf_eq {lines : List (Bytes × Bool)} {calls : List Call}
    (h : List.Forall₂ (Reads cap) lines calls) :
    calls.map Call.buf = lines.map (expected cap) ↔
      ∀ line ∈ lines, line.2 = true ∨ cap.toNat < line.1.length := by
  induction h with
  | nil => simp
  | cons hreads _ ih =>
    rw [List.map_cons, List.map_cons, List.cons.injEq, ih, hreads.buf, returned_eq_expected,
      List.forall_mem_cons]

theorem forall_held_iff {lines : List (Bytes × Bool)} {calls : List Call} (more : ℕ)
    (h : List.Forall₂ (Reads cap) lines calls) :
    (∀ call ∈ calls, ∀ size ∈ call.held, size ≤ cap.toNat + (marker.length + more)) ↔
      ∀ line ∈ lines, line.1.length + (if line.2 then 1 else 0) ≤ cap.toNat + 1 + more := by
  induction h with
  | nil => simp
  | cons hreads _ ih => rw [List.forall_mem_cons, ih, hreads.held, List.forall_mem_cons]

/-- A cap for which the limit does not overflow. -/
theorem lossless_iff_lines (more : ℕ) (hcap : cap.toNat + 1 < 2 ^ 64) :
    Lossless more cap pieces ↔ ∀ line ∈ linesOf pieces.flatten,
      (line.2 = true ∨ cap.toNat < line.1.length) ∧
      line.1.length + (if line.2 then 1 else 0) ≤ cap.toNat + 1 + more := by
  obtain ⟨calls, hcalls, hreads⟩ := logger_spec hcap (Nat.lt_succ_self pieces.flatten.length)
  have hlossless : Lossless more cap pieces ↔
      calls.map Call.buf = (linesOf pieces.flatten).map (expected cap) ∧
      ∀ call ∈ calls, ∀ size ∈ call.held, size ≤ cap.toNat + (marker.length + more) := by
    rw [Lossless, hcalls]
    simp
  rw [hlossless, map_buf_eq hreads, forall_held_iff more hreads, ← forall₂_and]

/-- The largest cap. -/
theorem lossless_iff_nil (more : ℕ) (hcap : ¬ cap.toNat + 1 < 2 ^ 64) :
    Lossless more cap pieces ↔ pieces.flatten = [] := by
  have hcalls : logger cap (pieces.flatten.length + 1) pieces = some [] := by
    rw [logger, if_pos (readStderrLineBounded_overflow hcap)]
  constructor
  · rintro ⟨calls, hsome, hbufs, -⟩
    by_contra hne
    cases hcalls.symm.trans hsome
    rw [linesOf_eq hne] at hbufs
    cases hbufs
  · intro hnil
    refine ⟨[], hcalls, ?_, fun call hcall => absurd hcall List.not_mem_nil⟩
    rw [hnil]
    rfl

end

/-- **The streams that are read without loss and within the bound**: the cap is not the largest
number, every line ends with a newline or is longer than the cap, and no line is longer than the cap
by more than the bound has. -/
theorem lossless_iff (more : ℕ) (cap : UInt64) (pieces : List Bytes) :
    Lossless more cap pieces ↔
      pieces.flatten = [] ∨ (cap.toNat + 1 < 2 ^ 64 ∧ ∀ line ∈ linesOf pieces.flatten,
        (line.2 = true ∨ cap.toNat < line.1.length) ∧
        line.1.length + (if line.2 then 1 else 0) ≤ cap.toNat + 1 + more) := by
  by_cases hcap : cap.toNat + 1 < 2 ^ 64
  · rw [lossless_iff_lines more hcap]
    refine ⟨fun h => .inr ⟨hcap, h⟩, fun h => ?_⟩
    rcases h with hnil | ⟨-, hlines⟩
    · rw [hnil]
      exact fun line hline => absurd hline List.not_mem_nil
    · exact hlines
  · rw [lossless_iff_nil more hcap]
    exact ⟨.inl, fun h => h.resolve_right fun h => hcap h.1⟩

/-- Two bytes without newline, with room for them; a long line; the largest cap. -/
theorem not_lossless :
    ¬ Lossless 0 2 [[97, 98]] ∧
    (∀ more, ¬ Lossless more 1 [List.replicate (more + 2) 97 ++ [newline]]) ∧
    ¬ Lossless 0 (UInt64.ofNat (2 ^ 64 - 1)) [[newline]] := by
  refine ⟨?_, fun more h => ?_, ?_⟩
  · rw [lossless_iff_lines 0 (by decide)]
    decide
  · obtain ⟨s, hs⟩ : ∃ s, s = List.replicate (more + 2) 97 ++ [newline] := ⟨_, rfl⟩
    have hself : through s = s := by
      have hmem : newline ∉ List.replicate (more + 2) 97 := by
        rw [List.mem_replicate]
        exact fun h => absurd h.2 (by decide)
      rw [hs, through_append, if_neg hmem]
      rfl
    have hne : s ≠ [] := hs ▸ List.append_ne_nil_of_right_ne_nil _ (List.cons_ne_nil _ _)
    have hline : lineOf s ∈ linesOf s := by
      rw [linesOf_eq hne, hself]
      exact List.mem_cons_self
    rw [lossless_iff_lines more (by decide), ← hs, List.flatten_singleton] at h
    have hlen := (h _ hline).2
    rw [length_lineOf, hs, List.length_append, List.length_replicate, List.length_singleton] at hlen
    change more + 2 + 1 ≤ 1 + 1 + more at hlen
    omega
  · rw [lossless_iff_nil 0 (by decide)]
    decide

end LiteServer.Worker.Stderr
