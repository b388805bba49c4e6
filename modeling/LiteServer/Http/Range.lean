import LiteServer.Http.Origin
import Mathlib.Algebra.Order.Ring.Nat

/-!
# Range headers

`parse_range`: which bytes of a representation a `Range` header asks for. The grammar is `IsRange`,
a single range of bytes with its numbers written in digits, and `RangeSpec.select` says which bytes
a range selects of a representation of some size, for numbers of any length.

The parser leaves the grammar in three places. It trims the parts around the hyphen and reads them
by `parse::<u64>`, which takes a plus sign; for an empty representation it does not look at the
parts at all; and a number that does not fit into 64 bits makes it ignore the header, also where
the number is the end of a range or a suffix and so selects all there is.

## Main results

* `scan_eq_some` — how a value falls apart
* `parseRange_window` — a selected window lies in the representation
* `followsGrammar_iff` — when the answer is the one of the grammar
-/

namespace LiteServer.Http

/-! ### The parser -/

/-- What a `Range` header asks for. -/
inductive ByteRange
  | full
  | single (start stop : ℕ)
  | unsatisfiable
  deriving DecidableEq

/-- `str::parse::<u64>`. -/
def parseU64 (text : Text) : Option ℕ :=
  let digits := if text.head? = some '+' then text.tail else text
  if digits ≠ [] ∧ digits.all Char.isDigit ∧ decimal digits < 2 ^ 64 then some (decimal digits)
  else none

/-- `split_once`. -/
def splitOnce (sep : Char) : Text → Option (Text × Text)
  | [] => none
  | c :: text =>
    if c = sep then some ([], text)
    else (splitOnce sep text).map fun parts => (c :: parts.1, parts.2)

/-- The parts before and after the hyphen. -/
def scan (value : Text) : Option (Text × Text) :=
  match stripPrefix value "bytes=".toList with
  | none => none
  | some spec => if ',' ∈ spec then none else splitOnce '-' spec

/-- What the trimmed parts ask for. -/
def windowOf (first last : Text) (size : ℕ) : ByteRange :=
  if size = 0 then
    if first = [] ∧ last = [] then .full else .unsatisfiable
  else if first = [] then
    match parseU64 last with
    | none => .full
    | some suffix =>
      if suffix = 0 then .unsatisfiable else .single (size - min suffix size) (size - 1)
  else
    match parseU64 first, parseU64 last with
    | some start, some stop =>
      if start > stop ∨ start ≥ size then .unsatisfiable else .single start (min stop (size - 1))
    | some start, none =>
      if last = [] then if start < size then .single start (size - 1) else .unsatisfiable
      else .full
    | none, _ => .full

/-- `parse_range`. -/
def parseRange (header : Option Text) (size : ℕ) : ByteRange :=
  match header with
  | none => .full
  | some value =>
    match scan (trim value) with
    | none => .full
    | some (first, last) => windowOf (trim first) (trim last) size

/-! ### The grammar -/

/-- A row of digits. -/
def IsNumber (text : Text) : Prop := text ≠ [] ∧ ∀ c ∈ text, c.isDigit = true

/-- A range of the grammar. -/
inductive RangeSpec
  /-- From one byte to another. -/
  | closed (first last : ℕ)
  /-- From one byte on. -/
  | openEnd (first : ℕ)
  /-- The last bytes. -/
  | suffix (count : ℕ)

/-- What stands before and after the hyphen of a range. -/
inductive IsSpec : Text → Text → RangeSpec → Prop
  | closed {first last : Text} (hfirst : IsNumber first) (hlast : IsNumber last) :
      IsSpec first last (.closed (decimal first) (decimal last))
  | openEnd {first : Text} (hfirst : IsNumber first) : IsSpec first [] (.openEnd (decimal first))
  | suffix {last : Text} (hlast : IsNumber last) : IsSpec [] last (.suffix (decimal last))

/-- A value that is a single range of bytes. -/
def IsRange (value : Text) (r : RangeSpec) : Prop :=
  ∃ first last, value = "bytes=".toList ++ (first ++ '-' :: last) ∧ IsSpec first last r

namespace RangeSpec

/-- The first and the last byte that a range selects, if it selects one. -/
def select (size : ℕ) : RangeSpec → Option (ℕ × ℕ)
  | closed first last =>
    if first ≤ last ∧ first < size then some (first, min last (size - 1)) else none
  | openEnd first => if first < size then some (first, size - 1) else none
  | suffix count => if 0 < min count size then some (size - min count size, size - 1) else none

/-- The number a range ends with. -/
def lastNumber : RangeSpec → ℕ
  | closed _ last => last
  | openEnd first => first
  | suffix count => count

end RangeSpec

/-- The parser's answer is the one the grammar gives. -/
structure FollowsGrammar (value : Text) (size : ℕ) : Prop where
  unsatisfiable : parseRange (some value) size = .unsatisfiable →
    ∃ r, IsRange (trim value) r ∧ r.select size = none
  single : ∀ start stop, parseRange (some value) size = .single start stop ↔
    ∃ r, IsRange (trim value) r ∧ r.select size = some (start, stop)
  window : ∀ start stop, parseRange (some value) size = .single start stop →
    start ≤ stop ∧ stop < size
  full : (¬ ∃ r, IsRange (trim value) r) → parseRange (some value) size = .full

/-! ### Texts -/

variable {text value first last : Text} {size : ℕ}

/-- Nothing but white space. -/
def IsBlank (text : Text) : Prop := ∀ c ∈ text, isSpace c = true

/-- A number of 64 bits that may have white space around it and a plus sign in front. -/
def IsLoose (text : Text) : Prop :=
  ∃ digits, IsNumber digits ∧ decimal digits < 2 ^ 64 ∧
    (trim text = digits ∨ trim text = '+' :: digits)

/-- What the parser takes for the two parts of a range: parts that are not both blank and, unless
the representation is empty, are numbers where they are not blank. -/
def Passes (size : ℕ) (first last : Text) : Prop :=
  ¬ (IsBlank first ∧ IsBlank last) ∧
    (size = 0 ∨ (IsLoose first ∨ IsBlank first) ∧ (IsLoose last ∨ IsBlank last))

theorem isSpace_of_isDigit {c : Char} (h : c.isDigit = true) : isSpace c = false := by
  obtain ⟨hlow, hhigh⟩ := code_of_isDigit h
  exact isSpace_of_code (by omega) (by omega)

theorem trim_of_isNumber (h : IsNumber text) : trim text = text :=
  trim_eq_self fun c hc => isSpace_of_isDigit (h.2 c hc)

theorem trim_eq_nil_iff : trim text = [] ↔ IsBlank text := by
  rw [trim, List.rdropWhile_eq_nil_iff]
  constructor
  · intro h
    refine List.dropWhile_eq_nil_iff.mp ?_
    by_contra hne
    have hhead := List.head_dropWhile_not isSpace hne
    rw [h _ (List.head_mem hne)] at hhead
    exact Bool.noConfusion hhead
  · intro h c hc
    exact h c ((List.dropWhile_suffix isSpace).subset hc)

theorem not_isDigit_plus : Char.isDigit '+' = false := by decide

theorem parseU64_eq_some {n : ℕ} :
    parseU64 text = some n ↔ ∃ digits, IsNumber digits ∧ decimal digits < 2 ^ 64 ∧
      (text = digits ∨ text = '+' :: digits) ∧ decimal digits = n := by
  have hread : ∀ digits : Text,
      (if digits ≠ [] ∧ digits.all Char.isDigit ∧ decimal digits < 2 ^ 64
        then some (decimal digits) else none) = some n ↔
      IsNumber digits ∧ decimal digits < 2 ^ 64 ∧ decimal digits = n := by
    intro digits
    rw [Option.ite_none_right_eq_some, IsNumber, List.all_eq_true, Option.some.injEq]
    tauto
  rw [parseU64, hread]
  constructor
  · rintro ⟨hnumber, hlt, hn⟩
    refine ⟨_, hnumber, hlt, ?_, hn⟩
    split
    · rename_i hplus
      exact .inr (List.head?_eq_some_iff.mp hplus |>.elim fun rest h => by rw [h, List.tail_cons])
    · exact .inl rfl
  · rintro ⟨digits, hnumber, hlt, rfl | rfl, hn⟩
    · have hplus : ¬ text.head? = some '+' := fun h => by
        have hdigit := hnumber.2 '+' (List.mem_of_mem_head? h)
        rw [not_isDigit_plus] at hdigit
        exact Bool.noConfusion hdigit
      rw [if_neg hplus]
      exact ⟨hnumber, hlt, hn⟩
    · exact ⟨hnumber, hlt, hn⟩

theorem isLoose_iff : IsLoose text ↔ (parseU64 (trim text)).isSome = true := by
  rw [Option.isSome_iff_exists]
  constructor
  · rintro ⟨digits, hnumber, hlt, htrim⟩
    exact ⟨_, parseU64_eq_some.mpr ⟨digits, hnumber, hlt, htrim, rfl⟩⟩
  · rintro ⟨n, hn⟩
    obtain ⟨digits, hnumber, hlt, htrim, -⟩ := parseU64_eq_some.mp hn
    exact ⟨digits, hnumber, hlt, htrim⟩

/-- A number is read unless it is too long. -/
theorem parseU64_of_isNumber (h : IsNumber text) :
    parseU64 text = if decimal text < 2 ^ 64 then some (decimal text) else none := by
  split
  · rename_i hlt
    exact parseU64_eq_some.mpr ⟨text, h, hlt, .inl rfl, rfl⟩
  · rename_i hge
    refine Option.eq_none_iff_forall_ne_some.mpr fun n hn => ?_
    obtain ⟨digits, hdigits, hlt, rfl | rfl, -⟩ := parseU64_eq_some.mp hn
    · exact hge hlt
    · have hplus := h.2 '+' List.mem_cons_self
      rw [not_isDigit_plus] at hplus
      exact Bool.noConfusion hplus

theorem parseU64_nil : parseU64 [] = none := by decide

/-! ### The parts of a value -/

theorem splitOnce_eq_some {sep : Char} :
    splitOnce sep text = some (first, last) ↔ text = first ++ sep :: last ∧ sep ∉ first := by
  induction text generalizing first with
  | nil => simp [splitOnce]
  | cons c text ih =>
    rw [splitOnce]
    split
    · rename_i hc
      subst hc
      constructor
      · intro h
        obtain ⟨rfl, rfl⟩ := Prod.mk.inj (Option.some.inj h)
        exact ⟨rfl, List.not_mem_nil⟩
      · rintro ⟨htext, hsep⟩
        cases first with
        | nil => rw [(List.cons.inj htext).2]
        | cons d first => exact absurd (List.mem_cons.mpr (.inl (List.cons.inj htext).1)) hsep
    · rename_i hc
      rw [Option.map_eq_some_iff]
      constructor
      · rintro ⟨⟨first', last'⟩, hsplit, hparts⟩
        obtain ⟨rfl, rfl⟩ := Prod.mk.inj hparts
        obtain ⟨rfl, hsep⟩ := ih.mp hsplit
        exact ⟨rfl, List.not_mem_cons_of_ne_of_not_mem (Ne.symm hc) hsep⟩
      · rintro ⟨htext, hsep⟩
        cases first with
        | nil => exact absurd (List.cons.inj htext).1 hc
        | cons d first =>
          obtain ⟨rfl, rfl⟩ := List.cons.inj htext
          exact ⟨(first, last), ih.mpr ⟨rfl, fun h => hsep (List.mem_cons_of_mem _ h)⟩, rfl⟩

theorem scan_eq_some :
    scan value = some (first, last) ↔
      value = "bytes=".toList ++ (first ++ '-' :: last) ∧ '-' ∉ first ∧ ',' ∉ first ∧
        ',' ∉ last := by
  rw [scan, stripPrefix]
  constructor
  · intro h
    split at h
    · exact absurd h (by simp)
    · rename_i spec hspec
      rw [Option.ite_none_right_eq_some] at hspec
      obtain ⟨⟨spec', rfl⟩, hdrop⟩ := hspec
      rw [List.drop_left, Option.some.injEq] at hdrop
      subst hdrop
      rw [Option.ite_none_left_eq_some, splitOnce_eq_some] at h
      obtain ⟨hcomma, rfl, hhyphen⟩ := h
      simp only [List.mem_append, List.mem_cons, not_or] at hcomma
      exact ⟨rfl, hhyphen, hcomma.1, hcomma.2.2⟩
  · rintro ⟨rfl, hhyphen, hfirst, hlast⟩
    rw [if_pos (List.prefix_append _ _), List.drop_left]
    dsimp only
    rw [if_neg (by simp [hfirst, hlast]), splitOnce_eq_some]
    exact ⟨rfl, hhyphen⟩

theorem IsNumber.not_mem {c : Char} (h : IsNumber text) (hc : c.isDigit = false) : c ∉ text :=
  fun hmem => by simp [h.2 c hmem] at hc

/-- A range is scanned into its parts. -/
theorem scan_of_isSpec {r : RangeSpec} (h : IsSpec first last r) :
    scan ("bytes=".toList ++ (first ++ '-' :: last)) = some (first, last) := by
  have hhyphen : Char.isDigit '-' = false := by decide
  have hcomma : Char.isDigit ',' = false := by decide
  rw [scan_eq_some]
  cases h with
  | closed hfirst hlast =>
    exact ⟨rfl, hfirst.not_mem hhyphen, hfirst.not_mem hcomma, hlast.not_mem hcomma⟩
  | openEnd hfirst =>
    exact ⟨rfl, hfirst.not_mem hhyphen, hfirst.not_mem hcomma, List.not_mem_nil⟩
  | suffix hlast => exact ⟨rfl, List.not_mem_nil, List.not_mem_nil, hlast.not_mem hcomma⟩

theorem isRange_iff {r : RangeSpec} :
    IsRange value r ↔ ∃ first last, scan value = some (first, last) ∧ IsSpec first last r := by
  constructor
  · rintro ⟨first, last, rfl, hspec⟩
    exact ⟨first, last, scan_of_isSpec hspec, hspec⟩
  · rintro ⟨first, last, hscan, hspec⟩
    exact ⟨first, last, (scan_eq_some.mp hscan).1, hspec⟩

/-! ### The answers -/

/-- What is known when a window is selected. -/
theorem windowOf_eq_single {start stop : ℕ} (h : windowOf first last size = .single start stop) :
    (first = [] ∧ ∃ n, parseU64 last = some n ∧ 0 < n ∧ 0 < size ∧
        start = size - min n size ∧ stop = size - 1) ∨
      (∃ b, parseU64 first = some start ∧ parseU64 last = some b ∧ start ≤ b ∧ start < size ∧
        stop = min b (size - 1)) ∨
      (last = [] ∧ parseU64 first = some start ∧ start < size ∧ stop = size - 1) := by
  unfold windowOf at h
  split at h
  · split at h <;> exact ByteRange.noConfusion h
  rename_i hsize
  split at h
  · rename_i hnil
    cases hlast : parseU64 last with
    | none => simp [hlast] at h
    | some n =>
      simp only [hlast] at h
      split_ifs at h with hzero
      obtain ⟨rfl, rfl⟩ := ByteRange.single.inj h
      exact .inl ⟨hnil, n, rfl, by omega, by omega, rfl, rfl⟩
  · cases hfirst : parseU64 first with
    | none => simp [hfirst] at h
    | some n =>
      cases hlast : parseU64 last with
      | none =>
        simp only [hfirst, hlast] at h
        split_ifs at h with hnil hlt
        obtain ⟨rfl, rfl⟩ := ByteRange.single.inj h
        exact .inr (.inr ⟨hnil, rfl, hlt, rfl⟩)
      | some b =>
        simp only [hfirst, hlast] at h
        split_ifs at h with hout
        obtain ⟨rfl, rfl⟩ := ByteRange.single.inj h
        exact .inr (.inl ⟨b, rfl, rfl, by omega, by omega, rfl⟩)

/-- A selected window lies in the representation. -/
theorem windowOf_window {start stop : ℕ} (h : windowOf first last size = .single start stop) :
    start ≤ stop ∧ stop < size := by
  obtain ⟨-, n, -, hn, hsize, rfl, rfl⟩ | ⟨b, -, -, hb, hsize, rfl⟩ | ⟨-, -, hsize, rfl⟩ :=
    windowOf_eq_single h
  · omega
  · omega
  · omega

/-- The header is heeded when the parts pass for a range. -/
theorem windowOf_ne_full_iff :
    windowOf (trim first) (trim last) size ≠ .full ↔ Passes size first last := by
  rw [Passes, isLoose_iff, isLoose_iff, ← trim_eq_nil_iff, ← trim_eq_nil_iff]
  generalize trim first = f
  generalize trim last = l
  unfold windowOf
  by_cases hsize : size = 0
  · rw [if_pos hsize]
    split <;> simp_all
  rw [if_neg hsize]
  by_cases hf : f = []
  · subst hf
    cases hl : parseU64 l with
    | none => simp [parseU64_nil, hsize]
    | some suffix =>
      have hne : l ≠ [] := by
        rintro rfl
        simp [parseU64_nil] at hl
      by_cases hzero : suffix = 0 <;> simp [hne, hzero]
  · rw [if_neg hf]
    cases hfirst : parseU64 f with
    | none => simp [hf, hsize]
    | some start =>
      cases hl : parseU64 l with
      | none =>
        by_cases hnil : l = []
        · by_cases hlt : start < size <;> simp [hnil, hf, hlt]
        · simp [hnil, hsize]
      | some stop =>
        by_cases hout : start > stop ∨ start ≥ size <;> simp [hf, hout]

theorem trim_nil : trim [] = [] := rfl

/-- Where a range selects bytes, the parser selects the same, unless the last number is too
long. -/
theorem windowOf_of_select (hsize : size < 2 ^ 64) {r : RangeSpec} (h : IsSpec first last r)
    {start stop : ℕ} (hselect : r.select size = some (start, stop)) :
    windowOf (trim first) (trim last) size =
      if r.lastNumber < 2 ^ 64 then .single start stop else .full := by
  cases h with
  | closed hfirst hlast =>
    rw [RangeSpec.select, Option.ite_none_right_eq_some] at hselect
    obtain ⟨⟨hle, hlt⟩, hwindow⟩ := hselect
    obtain ⟨rfl, rfl⟩ := Prod.mk.inj (Option.some.inj hwindow)
    rw [trim_of_isNumber hfirst, trim_of_isNumber hlast, windowOf, if_neg (by omega),
      if_neg hfirst.1, parseU64_of_isNumber hfirst, parseU64_of_isNumber hlast,
      if_pos (hlt.trans hsize), RangeSpec.lastNumber]
    by_cases hlong : decimal last < 2 ^ 64
    · rw [if_pos hlong, if_pos hlong]
      exact if_neg (by omega)
    · rw [if_neg hlong, if_neg hlong]
      exact if_neg hlast.1
  | openEnd hfirst =>
    rw [RangeSpec.select, Option.ite_none_right_eq_some] at hselect
    obtain ⟨hlt, hwindow⟩ := hselect
    obtain ⟨rfl, rfl⟩ := Prod.mk.inj (Option.some.inj hwindow)
    rw [trim_of_isNumber hfirst, trim_nil, windowOf, if_neg (by omega),
      if_neg hfirst.1, parseU64_of_isNumber hfirst, if_pos (hlt.trans hsize), parseU64_nil,
      RangeSpec.lastNumber, if_pos (hlt.trans hsize)]
    exact (if_pos rfl).trans (if_pos hlt)
  | suffix hlast =>
    rw [RangeSpec.select, Option.ite_none_right_eq_some] at hselect
    obtain ⟨hpos, hwindow⟩ := hselect
    obtain ⟨rfl, rfl⟩ := Prod.mk.inj (Option.some.inj hwindow)
    rw [trim_of_isNumber hlast, trim_nil, windowOf, if_neg (by omega), if_pos rfl,
      parseU64_of_isNumber hlast, RangeSpec.lastNumber]
    by_cases hlong : decimal last < 2 ^ 64
    · rw [if_pos hlong, if_pos hlong]
      exact if_neg (by omega)
    · rw [if_neg hlong, if_neg hlong]

/-- Where a range selects nothing, neither does the parser. -/
theorem windowOf_ne_single {r : RangeSpec} (h : IsSpec first last r)
    (hselect : r.select size = none) (start stop : ℕ) :
    windowOf (trim first) (trim last) size ≠ .single start stop := by
  intro hwindow
  have hread : ∀ {text n}, IsNumber text → parseU64 text = some n → n = decimal text := by
    intro text n hnumber hn
    rw [parseU64_of_isNumber hnumber, Option.ite_none_right_eq_some] at hn
    exact (Option.some.inj hn.2).symm
  replace hwindow := windowOf_eq_single hwindow
  cases h with
  | closed hfirst hlast =>
    rw [trim_of_isNumber hfirst, trim_of_isNumber hlast] at hwindow
    rw [RangeSpec.select, ite_eq_right_iff] at hselect
    obtain ⟨hnil, -⟩ | ⟨b, ha, hb, hle, hlt, -⟩ | ⟨hnil, -⟩ := hwindow
    · exact hfirst.1 hnil
    · rw [hread hfirst ha] at hle hlt
      rw [hread hlast hb] at hle
      exact absurd (hselect ⟨hle, hlt⟩) (Option.some_ne_none _)
    · exact hlast.1 hnil
  | openEnd hfirst =>
    rw [trim_of_isNumber hfirst, trim_nil] at hwindow
    rw [RangeSpec.select, ite_eq_right_iff] at hselect
    obtain ⟨hnil, -⟩ | ⟨b, -, hb, -⟩ | ⟨-, ha, hlt, -⟩ := hwindow
    · exact hfirst.1 hnil
    · exact absurd (parseU64_nil.symm.trans hb) (Option.some_ne_none _).symm
    · rw [hread hfirst ha] at hlt
      exact absurd (hselect hlt) (Option.some_ne_none _)
  | suffix hlast =>
    rw [trim_of_isNumber hlast, trim_nil] at hwindow
    rw [RangeSpec.select, ite_eq_right_iff] at hselect
    obtain ⟨-, n, hn, hpos, hsize, -⟩ | ⟨b, ha, -⟩ | ⟨hnil, -⟩ := hwindow
    · rw [hread hlast hn] at hpos
      exact absurd (hselect (by omega)) (Option.some_ne_none _)
    · exact absurd (parseU64_nil.symm.trans ha) (Option.some_ne_none _).symm
    · exact hlast.1 hnil

/-! ### The grammar and the parser -/

theorem parseRange_of_scan (h : scan (trim value) = some (first, last)) :
    parseRange (some value) size = windowOf (trim first) (trim last) size := by
  simp only [parseRange, h]

theorem parseRange_ne_full_iff :
    parseRange (some value) size ≠ .full ↔
      ∃ first last, scan (trim value) = some (first, last) ∧ Passes size first last := by
  cases hscan : scan (trim value) with
  | none => simp [parseRange, hscan]
  | some parts =>
    obtain ⟨first, last⟩ := parts
    rw [parseRange_of_scan hscan, windowOf_ne_full_iff]
    simp

theorem parseRange_window {start stop : ℕ}
    (h : parseRange (some value) size = .single start stop) : start ≤ stop ∧ stop < size := by
  cases hscan : scan (trim value) with
  | none => simp [parseRange, hscan] at h
  | some parts =>
    obtain ⟨first, last⟩ := parts
    rw [parseRange_of_scan hscan] at h
    exact windowOf_window h

theorem parseRange_of_select (hsize : size < 2 ^ 64) {r : RangeSpec}
    (h : IsRange (trim value) r) {start stop : ℕ}
    (hselect : r.select size = some (start, stop)) :
    parseRange (some value) size =
      if r.lastNumber < 2 ^ 64 then .single start stop else .full := by
  obtain ⟨first, last, hscan, hspec⟩ := isRange_iff.mp h
  rw [parseRange_of_scan hscan, windowOf_of_select hsize hspec hselect]

theorem parseRange_ne_single {r : RangeSpec} (h : IsRange (trim value) r)
    (hselect : r.select size = none) (start stop : ℕ) :
    parseRange (some value) size ≠ .single start stop := by
  obtain ⟨first, last, hscan, hspec⟩ := isRange_iff.mp h
  rw [parseRange_of_scan hscan]
  exact windowOf_ne_single hspec hselect start stop

/-- What keeps a value to the grammar, at a representation of some size. -/
structure Strict (value : Text) (size : ℕ) : Prop where
  /-- A value whose parts pass for a range is one. -/
  written : ∀ first last, scan value = some (first, last) → Passes size first last →
    ∃ r, IsRange value r
  /-- The last number of a range that selects bytes has 64 bits. -/
  short : ∀ r, IsRange value r → r.select size ≠ none → r.lastNumber < 2 ^ 64

/-- **Range headers and their grammar.** For every header value and every size of 64 bits, the
parser answers by the grammar if and only if the value is written strictly: no white space or plus
sign at a number, no text that is no range where the representation is empty, and no number of more
than 64 bits at the end of a range that selects bytes. -/
theorem followsGrammar_iff (value : Text) {size : ℕ} (hsize : size < 2 ^ 64) :
    FollowsGrammar value size ↔ Strict (trim value) size := by
  constructor
  · rintro ⟨-, hsingle, -, hfull⟩
    refine ⟨fun first last hscan hpass => ?_, fun r hr hselect => ?_⟩
    · by_contra hno
      exact parseRange_ne_full_iff.mpr ⟨first, last, hscan, hpass⟩ (hfull hno)
    · obtain ⟨⟨start, stop⟩, hwindow⟩ := Option.ne_none_iff_exists'.mp hselect
      have hparse := (hsingle start stop).mpr ⟨r, hr, hwindow⟩
      by_contra hlong
      rw [parseRange_of_select hsize hr hwindow, if_neg hlong] at hparse
      exact ByteRange.noConfusion hparse
  · rintro ⟨hwritten, hshort⟩
    have hselected : ∀ r, IsRange (trim value) r → ∀ start stop,
        r.select size = some (start, stop) → parseRange (some value) size = .single start stop := by
      intro r hr start stop hwindow
      have hlt := hshort r hr (by rw [hwindow]; exact Option.some_ne_none _)
      rw [parseRange_of_select hsize hr hwindow, if_pos hlt]
    have hrange : parseRange (some value) size ≠ .full → ∃ r, IsRange (trim value) r := by
      intro hne
      obtain ⟨first, last, hscan, hpass⟩ := parseRange_ne_full_iff.mp hne
      exact hwritten first last hscan hpass
    refine ⟨fun hparse => ?_, fun start stop => ⟨fun hparse => ?_, ?_⟩,
      fun start stop => parseRange_window, fun hno => not_not.mp (mt hrange hno)⟩
    · obtain ⟨r, hr⟩ := hrange (by rw [hparse]; exact fun h => ByteRange.noConfusion h)
      refine ⟨r, hr, Option.eq_none_iff_forall_ne_some.mpr fun window hwindow => ?_⟩
      rw [hselected r hr window.1 window.2 hwindow] at hparse
      exact ByteRange.noConfusion hparse
    · obtain ⟨r, hr⟩ := hrange (by rw [hparse]; exact fun h => ByteRange.noConfusion h)
      refine ⟨r, hr, ?_⟩
      cases hwindow : r.select size with
      | none => exact absurd hparse (parseRange_ne_single hr hwindow start stop)
      | some window =>
        rw [hselected r hr window.1 window.2 hwindow] at hparse
        obtain ⟨rfl, rfl⟩ := ByteRange.single.inj hparse
        rfl
    · rintro ⟨r, hr, hwindow⟩
      exact hselected r hr start stop hwindow

theorem isNumber_of_all {text : Text} (hne : text ≠ []) (h : text.all Char.isDigit = true) :
    IsNumber text :=
  ⟨hne, List.all_eq_true.1 h⟩

/-- The grammar is followed at a plain range. -/
theorem followsGrammar_plain :
    FollowsGrammar "bytes=2-5".toList 10 ∧
      parseRange (some "bytes=2-5".toList) 10 = .single 2 5 := by
  have htrim : trim "bytes=2-5".toList = "bytes=".toList ++ (['2'] ++ '-' :: ['5']) := by
    decide
  have hspec : IsSpec ['2'] ['5'] (.closed 2 5) :=
    .closed (isNumber_of_all (by decide) (by decide)) (isNumber_of_all (by decide) (by decide))
  have hrange : IsRange (trim "bytes=2-5".toList) (.closed 2 5) := ⟨_, _, htrim, hspec⟩
  refine ⟨(followsGrammar_iff _ (by decide)).mpr
    ⟨fun _ _ _ _ => ⟨_, hrange⟩, fun r hr _ => ?_⟩, by decide⟩
  obtain ⟨first, last, hscan, hr⟩ := isRange_iff.mp hr
  rw [htrim, scan_of_isSpec hspec, Option.some.injEq, Prod.mk.injEq] at hscan
  obtain ⟨rfl, rfl⟩ := hscan
  cases hr with
  | closed => decide

/-- Text that is no range is refused at an empty representation, a plus sign is read over, and a
number of more than 64 bits makes the parser send everything. -/
theorem parseRange_leaves_grammar :
    (parseRange (some "bytes=a-b".toList) 0 = .unsatisfiable ∧
        ¬ FollowsGrammar "bytes=a-b".toList 0) ∧
      (parseRange (some "bytes=+2-5".toList) 10 = .single 2 5 ∧
        ¬ FollowsGrammar "bytes=+2-5".toList 10) ∧
      (parseRange (some "bytes=2-18446744073709551616".toList) 10 = .full ∧
        ¬ FollowsGrammar "bytes=2-18446744073709551616".toList 10) := by
  have hnone : ∀ value : Text, ∀ first last, scan (trim value) = some (first, last) →
      first ≠ [] → ¬ IsNumber first → ¬ ∃ r, IsRange (trim value) r := by
    rintro value first last hscan hne hnumber ⟨r, hr⟩
    obtain ⟨first', last', hscan', hspec⟩ := isRange_iff.mp hr
    obtain ⟨rfl, rfl⟩ := Prod.mk.inj (Option.some.inj (hscan.symm.trans hscan'))
    cases hspec with
    | closed hfirst => exact hnumber hfirst
    | openEnd hfirst => exact hnumber hfirst
    | suffix => exact hne rfl
  refine ⟨⟨by decide, fun h => ?_⟩, ⟨by decide, fun h => ?_⟩, by decide, fun h => ?_⟩
  · refine absurd (h.full (hnone _ ['a'] ['b'] (by decide) (by decide) fun hn => ?_)) (by decide)
    exact absurd (hn.2 'a' (by decide)) (by decide)
  · refine absurd (h.full (hnone _ "+2".toList ['5'] (by decide) (by decide) fun hn => ?_))
      (by decide)
    exact absurd (hn.2 '+' (by decide)) (by decide)
  · have hspec : IsSpec ['2'] "18446744073709551616".toList (.closed 2 18446744073709551616) :=
      .closed (isNumber_of_all (by decide) (by decide)) (isNumber_of_all (by decide) (by decide))
    exact absurd ((h.single 2 9).mpr ⟨_, ⟨_, _, by decide, hspec⟩, by decide⟩) (by decide)

end LiteServer.Http
