import LiteServer.Ensemble.Slices

/-!
# One envelope for several DAG sets

A client of a container of DAG sets sends one envelope, whichever set its request runs. A set reads
the inputs it declares and steps over the others, and the bytes of the tail must come out the same.

An unknown element steps over its `binary_data_size` even when it carries its value in `data`; a set
that declares the element takes no bytes for it. The two sets are then out of step for everything
behind it.

## Main results

* `inputBytes_of_element` — the bytes a binary input receives, by the place of its element
* `shared_bytes_iff` — two sets read the same bytes from every tail exactly when the elements they
  both cut from it stand behind the same number of bytes
* `data_and_size_misaligns` — an envelope that two sets read differently
-/

namespace LiteServer

namespace Ensemble

open Checks

/-- The data of a binary value. -/
def EnsembleValue.bytes : EnsembleValue → Option Bytes
  | .binary data _ _ _ => some data
  | _ => none

/-- The bytes an input receives. -/
def inputBytes (values : IndexMap String EnsembleValue) (name : String) : Option Bytes :=
  (values.get? name).bind EnsembleValue.bytes

/-- The set declares the input, as bytes. -/
def IsBinary (decl : IndexMap String InputDecl) (name : String) : Prop :=
  ∃ d, decl.get? name = some d ∧ d.ty = .binary

/-- A set with these inputs accepts the envelope, with these values. -/
def Receives (E : Externals) (head : Json) (tail : Bytes) (decl : IndexMap String InputDecl)
    (values : IndexMap String EnsembleValue) : Prop :=
  ∃ absent, parseRootInputs E (.envelope head tail) (some decl) true = .ok (.named values absent)

/-- The inputs that are binary in both sets receive the same bytes. -/
def SharedBytes (E : Externals) (head : Json) (tail : Bytes) (A B : IndexMap String InputDecl) :
    Prop :=
  ∀ valuesA valuesB, Receives E head tail A valuesA → Receives E head tail B valuesB →
    ∀ name, IsBinary A name → IsBinary B name → inputBytes valuesA name = inputBytes valuesB name

/-- The bytes an element has for a binary input, at an offset of the tail. -/
def elementBytes (E : Externals) (tail : Bytes) (offset : ℕ) (el : Json) : Option Bytes :=
  match el.get "data" with
  | some marker => (decodeBinaryMarker E marker).toOption.map Prod.fst
  | none => (binaryDataSize el).map fun size => (tail.drop offset).take size.toNat

/-- An element of the envelope that is a binary input of both sets, behind `front`. -/
structure SharedElement (A B : IndexMap String InputDecl) (inputs front : List Json) (el : Json) :
    Prop where
  split : ∃ back, inputs = front ++ el :: back
  binary : ∃ name, elementName el = some name ∧ IsBinary A name ∧ IsBinary B name

/-- The bytes that both sets cut from the tail for an input are behind the same number of bytes. -/
def Aligned (A B : IndexMap String InputDecl) (inputs : List Json) : Prop :=
  ∀ front el, SharedElement A B inputs front el → ∀ n, sliceSize A el = some n → 0 < n →
    sliceTotal A front = sliceTotal B front

/-! ### What an input receives -/

section

variable {E : Externals} {head : Json} {tail : Bytes} {decl : IndexMap String InputDecl}
  {values : IndexMap String EnsembleValue} {inputs : List Json} {name : String}

theorem Receives.exists_run (h : Receives E head tail decl values)
    (hinputs : (head.get "inputs").bind Json.asArray = some inputs) :
    ∃ scan absent, ScanRun E decl tail {} inputs scan ∧ scan.offset = tail.length ∧
      Fill decl.entries scan.values values [] absent := by
  obtain ⟨absent, h⟩ := h
  simp only [parseRootInputs, bind_eq_ok, Prod.exists] at h
  obtain ⟨_, _, h, rfl, rfl⟩ := h
  obtain ⟨head', tail', inputs', scan, hsplit, hinputs', hrun, hall, hfill⟩ :=
    parseNamedInputs_eq_ok h
  obtain ⟨rfl, rfl⟩ := Prod.mk.inj (Except.ok.inj hsplit)
  obtain rfl := Option.some.inj (hinputs.symm.trans hinputs')
  exact ⟨scan, _, hrun, hall, hfill⟩

variable {el : Json} {offset : ℕ} {read : Option (String × EnsembleValue)}

theorem Scanned.elementBytes (h : Scanned E decl tail offset el read)
    (hname : elementName el = some name) (hbinary : IsBinary decl name) :
    ∃ v, read = some (name, v) ∧ v.bytes = elementBytes E tail offset el := by
  obtain ⟨d, hd, hty⟩ := hbinary
  rw [Ensemble.elementBytes]
  cases h with
  | unknown hname' hd' =>
    obtain rfl := Option.some.inj (hname.symm.trans hname')
    exact absurd (hd.symm.trans hd') (by simp)
  | json hname' hd' hty' hdata =>
    obtain rfl := Option.some.inj (hname.symm.trans hname')
    obtain rfl := Option.some.inj (hd.symm.trans hd')
    exact absurd (hty.symm.trans hty') (by simp)
  | marker hname' hd' hty' hdata hdecode =>
    obtain rfl := Option.some.inj (hname.symm.trans hname')
    exact ⟨_, rfl, by simp [hdata, hdecode, EnsembleValue.bytes, Except.toOption]⟩
  | slice hname' hd' hty' hdata hbytes =>
    obtain rfl := Option.some.inj (hname.symm.trans hname')
    exact ⟨_, rfl, by simp [hdata, hbytes, EnsembleValue.bytes]⟩

variable {front back : List Json}

/-- **The bytes of a binary input** are those of its element, behind the slices in front of it. -/
theorem inputBytes_of_element (h : Receives E head tail decl values)
    (hinputs : (head.get "inputs").bind Json.asArray = some inputs)
    (hsplit : inputs = front ++ el :: back) (hname : elementName el = some name)
    (hbinary : IsBinary decl name) :
    inputBytes values name = elementBytes E tail (sliceTotal decl front) el := by
  obtain ⟨scan, absent, hrun, -, hfill⟩ := h.exists_run hinputs
  subst hsplit
  obtain ⟨read, hscanned, hget⟩ := hrun.read_at
  obtain ⟨v, rfl, hbytes⟩ := hscanned.elementBytes hname hbinary
  have hv : values.get? name = some v :=
    (hfill.get?_eq_some name v).mpr (.inl (hget (name, v) rfl))
  rw [inputBytes, hv, Option.bind_some, hbytes]
  exact congrArg (fun offset => elementBytes E tail offset el) (Nat.zero_add _)

/-- An input without an element receives nothing. -/
theorem inputBytes_eq_none (h : Receives E head tail decl values)
    (hinputs : (head.get "inputs").bind Json.asArray = some inputs)
    (hnone : ∀ el ∈ inputs, elementName el ≠ some name) : inputBytes values name = none := by
  obtain ⟨scan, absent, hrun, -, hfill⟩ := h.exists_run hinputs
  rw [inputBytes]
  cases hv : values.get? name with
  | none => rfl
  | some v =>
    rcases (hfill.get?_eq_some name v).mp hv with hscan | ⟨-, _, data, -, -, -, rfl⟩
    · rcases hrun.exists_scanned hscan with hinit | ⟨front, el, back, rfl, hscanned⟩
      · exact absurd hinit (by simp [IndexMap.get?, IndexMap.empty])
      · have hname : elementName el = some name := by cases hscanned <;> assumption
        exact absurd hname (hnone el (by simp))
    · rfl

/-! ### Another tail of the same length -/

theorem Scanned.retail (h : Scanned E decl tail offset el read) (tail' : Bytes) :
    ∃ read', Scanned E decl tail' offset el read' ∧ read'.map Prod.fst = read.map Prod.fst := by
  cases h with
  | unknown hname hd => exact ⟨_, .unknown hname hd, rfl⟩
  | json hname hd hty hdata => exact ⟨_, .json hname hd hty hdata, rfl⟩
  | marker hname hd hty hdata hdecode => exact ⟨_, .marker hname hd hty hdata hdecode, rfl⟩
  | slice hname hd hty hdata hbytes => exact ⟨_, .slice hname hd hty hdata hbytes, rfl⟩

variable {scan : EnvelopeScan}

theorem mem_keys_push :
    name ∈ (scan.push decl el read).values.keys ↔
      read.map Prod.fst = some name ∨ name ∈ scan.values.keys := by
  cases read with
  | none => simp [EnvelopeScan.push]
  | some e => simp [EnvelopeScan.push, IndexMap.mem_keys_insert, eq_comm]

variable {tail' : Bytes}

theorem ScanRun.retail {scan' : EnvelopeScan} {els : List Json}
    (h : ScanRun E decl tail scan els scan') (hlen : tail'.length = tail.length)
    (scan₂ : EnvelopeScan) (hoffset : scan₂.offset = scan.offset)
    (hkeys : ∀ n, n ∈ scan₂.values.keys ↔ n ∈ scan.values.keys) :
    ∃ scan₂', ScanRun E decl tail' scan₂ els scan₂' ∧ scan₂'.offset = scan'.offset ∧
      ∀ n, n ∈ scan₂'.values.keys ↔ n ∈ scan'.values.keys := by
  induction h generalizing scan₂ with
  | nil => exact ⟨scan₂, .nil, hoffset, hkeys⟩
  | @cons scan scan' el els read hscanned hfresh hle hrun ih =>
    obtain ⟨read', hscanned', hread⟩ := hscanned.retail tail'
    have hfresh' : ∀ e, read' = some e → e.1 ∉ scan₂.values.keys := by
      rintro e rfl
      obtain ⟨e', he', hname⟩ := Option.map_eq_some_iff.mp hread.symm
      rw [hkeys, ← hname]
      exact hfresh e' he'
    obtain ⟨scan₂', hrun', hrest⟩ := ih (scan₂.push decl el read')
      (by simp [hoffset]) (fun n => by rw [mem_keys_push, mem_keys_push, hread, hkeys])
    refine ⟨scan₂', .cons ?_ hfresh' ?_ hrun', hrest⟩
    · rw [hoffset]
      exact hscanned'
    · rw [hoffset, hlen]
      exact hle

/-- Acceptance asks the length of the tail only. -/
theorem Receives.retail (h : Receives E head tail decl values)
    (hinputs : (head.get "inputs").bind Json.asArray = some inputs) (htail : tail.length < 2 ^ 64)
    (hlen : tail'.length = tail.length) : ∃ values', Receives E head tail' decl values' := by
  obtain ⟨scan, absent, hrun, hall, hfill⟩ := h.exists_run hinputs
  obtain ⟨scan', hrun', hoffset, hkeys⟩ := hrun.retail hlen {} rfl fun _ => Iff.rfl
  have hsplit : splitPayload (.envelope head tail') = .ok (head, tail') := rfl
  obtain ⟨values', absent', hparse, -⟩ := exists_parseNamedInputs hsplit (hlen ▸ htail) hinputs
    hrun' (by rw [hoffset, hall, hlen])
    (fun n d hd => (hfill.covered n d hd).imp_left (hkeys n).mpr) (.inl rfl)
  exact ⟨values', absent', by rw [parseRootInputs, hparse]; rfl⟩

/-! ### Two sets -/

variable {A B : IndexMap String InputDecl} {valuesA valuesB : IndexMap String EnsembleValue}

/-- Two sets give an input the same bytes exactly when its element has the same bytes for both. -/
theorem sharedBytes_iff (hinputs : (head.get "inputs").bind Json.asArray = some inputs)
    (hA : Receives E head tail A valuesA) (hB : Receives E head tail B valuesB) :
    SharedBytes E head tail A B ↔ ∀ front el, SharedElement A B inputs front el →
      elementBytes E tail (sliceTotal A front) el = elementBytes E tail
        (sliceTotal B front) el := by
  constructor
  · rintro h front el ⟨⟨back, hsplit⟩, name, hname, hbinA, hbinB⟩
    rw [← inputBytes_of_element hA hinputs hsplit hname hbinA,
      ← inputBytes_of_element hB hinputs hsplit hname hbinB]
    exact h valuesA valuesB hA hB name hbinA hbinB
  · intro h valuesA' valuesB' hA' hB' name hbinA hbinB
    by_cases hmem : ∃ el ∈ inputs, elementName el = some name
    · obtain ⟨el, hel, hname⟩ := hmem
      obtain ⟨front, back, hsplit⟩ := List.append_of_mem hel
      rw [inputBytes_of_element hA' hinputs hsplit hname hbinA,
        inputBytes_of_element hB' hinputs hsplit hname hbinB]
      exact h front el ⟨⟨back, hsplit⟩, name, hname, hbinA, hbinB⟩
    · have hnone : ∀ el ∈ inputs, elementName el ≠ some name :=
        fun el hel hname => hmem ⟨el, hel, hname⟩
      rw [inputBytes_eq_none hA' hinputs hnone, inputBytes_eq_none hB' hinputs hnone]

theorem sliceSize_of_binary (hname : elementName el = some name) (hbinary : IsBinary decl name) :
    sliceSize decl el =
      if (el.get "data").isNone then (binaryDataSize el).map UInt64.toNat else none := by
  obtain ⟨d, hd, hty⟩ := hbinary
  simp [sliceSize, hname, hd, hty]

variable {offset' : ℕ}

/-- The bytes of an element change with the offset only if it has a slice. -/
theorem elementBytes_congr (hname : elementName el = some name) (hbinary : IsBinary decl name)
    (h : ∀ n, sliceSize decl el = some n → 0 < n → offset = offset') :
    elementBytes E tail offset el = elementBytes E tail offset' el := by
  rw [sliceSize_of_binary hname hbinary] at h
  rw [elementBytes, elementBytes]
  cases hdata : el.get "data" with
  | some marker => rfl
  | none =>
    cases hbytes : binaryDataSize el with
    | none => rfl
    | some size =>
      rcases Nat.eq_zero_or_pos size.toNat with hzero | hpos
      · simp [hzero]
      · rw [h size.toNat (by simp [hdata, hbytes]) hpos]

/-- A tail of zeros with one byte set. -/
def markAt (n offset : ℕ) : Bytes := (List.range n).map fun i => if i = offset then 1 else 0

/-- The mark tells offsets apart. -/
theorem eq_of_elementBytes_markAt {n k : ℕ} (hname : elementName el = some name)
    (hbinary : IsBinary decl name) (hsize : sliceSize decl el = some n) (hpos : 0 < n)
    (hoffset : offset < k) (hoffset' : offset' < k)
    (h : elementBytes E (markAt k offset) offset el = elementBytes E (markAt k offset) offset' el) :
    offset = offset' := by
  rw [sliceSize_of_binary hname hbinary] at hsize
  obtain ⟨hdata, size, hbytes, rfl⟩ : el.get "data" = none ∧
      ∃ size, binaryDataSize el = some size ∧ size.toNat = n := by
    simpa [Option.ite_none_right_eq_some] using hsize
  simp only [elementBytes, hdata, hbytes, Option.map_some, Option.some.injEq] at h
  have hfirst := congrArg (·[0]?) h
  simpa [List.getElem?_drop, hpos, markAt, hoffset, hoffset', eq_comm] using hfirst

theorem sliceTotal_append :
    sliceTotal decl (front ++ back) = sliceTotal decl front + sliceTotal decl back := by
  simp [sliceTotal]

/-- A slice is inside the tail. -/
theorem Receives.slice_le (h : Receives E head tail decl values)
    (hinputs : (head.get "inputs").bind Json.asArray = some inputs)
    (hsplit : inputs = front ++ el :: back) {n : ℕ} (hsize : sliceSize decl el = some n) :
    sliceTotal decl front + n ≤ tail.length := by
  obtain ⟨scan, _, hrun, hall, -⟩ := h.exists_run hinputs
  have htotal := hrun.offset_eq
  rw [hall, hsplit, sliceTotal_append, sliceTotal_cons, hsize, Option.getD_some] at htotal
  omega

/-- Without `data` next to it the size of an element is the bytes it takes, declared or not. -/
theorem Scanned.sliceSize_eq (h : Scanned E decl tail offset el read)
    (hboth : (el.get "data").isSome = true → binaryDataSize el = none) :
    sliceSize decl el = (binaryDataSize el).map UInt64.toNat := by
  cases h with
  | unknown hname hd => simp [sliceSize, hname, hd]
  | json hname hd hty hdata => simp [sliceSize, hname, hd, hboth (by simp [hdata])]
  | marker hname hd hty hdata _ => simp [sliceSize, hname, hd, hboth (by simp [hdata])]
  | slice hname hd hty hdata hbytes => simp [sliceSize, hname, hd, hty, hdata]

theorem Receives.sliceTotal_eq (h : Receives E head tail decl values)
    (hinputs : (head.get "inputs").bind Json.asArray = some inputs)
    (hboth : ∀ el ∈ inputs, (el.get "data").isSome = true → binaryDataSize el = none)
    (hfront : ∀ el ∈ front, el ∈ inputs) :
    sliceTotal decl front = (front.map fun el =>
      ((binaryDataSize el).map UInt64.toNat).getD 0).sum := by
  obtain ⟨scan, _, hrun, -, -⟩ := h.exists_run hinputs
  refine congrArg List.sum (List.map_congr_left fun el hel => ?_)
  obtain ⟨before, after, rfl⟩ := List.append_of_mem (hfront el hel)
  obtain ⟨_, hscanned, -⟩ := hrun.read_at
  rw [hscanned.sliceSize_eq (hboth el (by simp))]

/-- **A shared envelope.** Take an envelope that two sets accept. They read the same bytes from
every tail of its length exactly when each slice they both cut stands behind the same number of
bytes in both. On the tail itself they do exactly when the bytes at the two places are the same. An
envelope without an element that has both `data` and a `binary_data_size` is read alike. -/
theorem shared_bytes_iff (E : Externals) (head : Json) (inputs : List Json) (tail : Bytes)
    (A B : IndexMap String InputDecl) (valuesA valuesB : IndexMap String EnsembleValue)
    (hinputs : (head.get "inputs").bind Json.asArray = some inputs) (htail : tail.length < 2 ^ 64)
    (hA : Receives E head tail A valuesA) (hB : Receives E head tail B valuesB) :
    ((∀ tail', tail'.length = tail.length → SharedBytes E head tail' A B) ↔ Aligned A B inputs) ∧
    (SharedBytes E head tail A B ↔ ∀ front el, SharedElement A B inputs front el →
      elementBytes E tail (sliceTotal A front) el = elementBytes E tail (sliceTotal B front) el) ∧
    ((∀ el ∈ inputs, (el.get "data").isSome = true → binaryDataSize el = none) →
      Aligned A B inputs) := by
  refine ⟨⟨fun h front el hel n hsize hpos => ?_, fun h tail' hlen => ?_⟩,
    sharedBytes_iff hinputs hA hB, fun hboth front el hel n _ _ => ?_⟩
  · -- a tail with one byte marked tells the two offsets apart
    have hmark : (markAt tail.length (sliceTotal A front)).length = tail.length := by simp [markAt]
    obtain ⟨valuesA', hA'⟩ := hA.retail hinputs htail hmark
    obtain ⟨valuesB', hB'⟩ := hB.retail hinputs htail hmark
    have hbytes := (sharedBytes_iff hinputs hA' hB').mp (h _ hmark) front el hel
    obtain ⟨⟨back, hsplit⟩, name, hname, hbinA, hbinB⟩ := hel
    have hsizeB : sliceSize B el = some n := by
      rw [sliceSize_of_binary hname hbinB, ← sliceSize_of_binary hname hbinA, hsize]
    have hleA := hA.slice_le hinputs hsplit hsize
    have hleB := hB.slice_le hinputs hsplit hsizeB
    exact eq_of_elementBytes_markAt hname hbinA hsize hpos (by omega) (by omega) hbytes
  · obtain ⟨valuesA', hA'⟩ := hA.retail hinputs htail hlen
    obtain ⟨valuesB', hB'⟩ := hB.retail hinputs htail hlen
    refine (sharedBytes_iff hinputs hA' hB').mpr fun front el hel => ?_
    obtain ⟨name, hname, hbinA, -⟩ := hel.binary
    exact elementBytes_congr hname hbinA fun n hsize hpos => h front el hel n hsize hpos
  · obtain ⟨⟨back, rfl⟩, -⟩ := hel
    have hfront : ∀ el' ∈ front, el' ∈ front ++ el :: back := fun _ h => List.mem_append_left _ h
    rw [hA.sliceTotal_eq hinputs hboth hfront, hB.sliceTotal_eq hinputs hboth hfront]

end

/-! ### An envelope for two sets -/

/-- One JSON input next to a binary one. -/
def jsonAndBinary (json binary : String) : IndexMap String InputDecl :=
  (IndexMap.empty.insert json ⟨.json, true, none, none, none, none⟩).insert
    binary ⟨.binary, true, none, none, none, none⟩

/-- Three elements: the first and the last belong to one set each, the one between them to both. -/
def sharedInputs (outer : List (String × Json)) : List Json :=
  [element "x" outer, element "y" [binarySize 1], element "z" outer]

/-- The head of an envelope with those elements. -/
def sharedHead (outer : List (String × Json)) : Json :=
  .object [("inputs", .array (sharedInputs outer))]

theorem sharedHead_same_bytes :
    Aligned (jsonAndBinary "x" "y") (jsonAndBinary "z" "y") (sharedInputs [("data", .null)]) ∧
      ∀ tail' : Bytes, tail'.length = 1 →
        SharedBytes plainExternals (sharedHead [("data", .null)]) tail'
          (jsonAndBinary "x" "y") (jsonAndBinary "z" "y") := by
  obtain ⟨valuesA, hA⟩ : ∃ valuesA, Receives plainExternals (sharedHead [("data", .null)]) [7]
      (jsonAndBinary "x" "y") valuesA := ⟨_, _, rfl⟩
  obtain ⟨valuesB, hB⟩ : ∃ valuesB, Receives plainExternals (sharedHead [("data", .null)]) [7]
      (jsonAndBinary "z" "y") valuesB := ⟨_, _, rfl⟩
  obtain ⟨hiff, -, haligned⟩ := shared_bytes_iff plainExternals (sharedHead [("data", .null)])
    (sharedInputs [("data", .null)]) [7] _ _ valuesA valuesB rfl (by decide) hA hB
  exact ⟨haligned (by decide), hiff.mpr (haligned (by decide))⟩

/-- The outer elements announce a byte of the tail next to their `data`: the set that declares `x`
reads `y` from the first byte, and the set that declares `z` from the second. -/
theorem data_and_size_misaligns :
    ∃ valuesA valuesB,
      Receives plainExternals (sharedHead [("data", .null), binarySize 1]) [1, 2]
        (jsonAndBinary "x" "y") valuesA ∧
      Receives plainExternals (sharedHead [("data", .null), binarySize 1]) [1, 2]
        (jsonAndBinary "z" "y") valuesB ∧
      inputBytes valuesA "y" = some [1] ∧ inputBytes valuesB "y" = some [2] := by
  exact ⟨_, _, ⟨_, rfl⟩, ⟨_, rfl⟩, rfl, rfl⟩

end Ensemble

end LiteServer
