import LiteServer.Ensemble.Entry

/-!
# Slicing an envelope

The elements of an envelope are read in order, and some of them take the next bytes of the binary
tail: the declared binary ones without `data`, and the unknown ones with a `binary_data_size`. One
offset runs through all of them, past the elements that are skipped.

`ScanRun` is the loop as a relation: what every accepted element is read as, and that no slice goes
past the tail. What the request root satisfies is proved from it by induction on the elements.

## Main results

* `ScanRun.slices`, `flatten_slices` — the slices are assigned in order, and make up the tail
* `Fill` — the declared names are the keys and the absent ones, and what a value is
* `envelope_partition` — the request root of an envelope
-/

namespace LiteServer

namespace Ensemble

open Checks

/-! ### Slices -/

/-- The name of an element of `inputs`. -/
def elementName (el : Json) : Option String := (el.get "name").bind Json.asStr

/-- The bytes of the tail an element takes: a declared one when it is binary and has no `data`, an
unknown one whenever it has a size. -/
def sliceSize (decl : IndexMap String InputDecl) (el : Json) : Option ℕ :=
  match (elementName el).bind decl.get? with
  | some d =>
    if d.ty = .binary && (el.get "data").isNone then (binaryDataSize el).map UInt64.toNat else none
  | none => (binaryDataSize el).map UInt64.toNat

/-- The bytes of the tail some elements take together. -/
def sliceTotal (decl : IndexMap String InputDecl) (els : List Json) : ℕ :=
  (els.map fun el => (sliceSize decl el).getD 0).sum

/-- The elements that take a slice, each with the next bytes of the tail. -/
def slices (decl : IndexMap String InputDecl) : List Json → Bytes → List (Json × Bytes)
  | [], _ => []
  | el :: els, tail =>
    match sliceSize decl el with
    | some n => (el, tail.take n) :: slices decl els (tail.drop n)
    | none => slices decl els tail

section

variable {decl : IndexMap String InputDecl} {el : Json} {els : List Json} {tail : Bytes}

theorem sliceTotal_cons :
    sliceTotal decl (el :: els) = (sliceSize decl el).getD 0 + sliceTotal decl els := by
  rw [sliceTotal, List.map_cons, List.sum_cons, sliceTotal]

theorem map_fst_slices :
    (slices decl els tail).map Prod.fst = els.filter fun el => (sliceSize decl el).isSome := by
  induction els generalizing tail with
  | nil => rfl
  | cons el els ih =>
    cases hsize : sliceSize decl el with
    | none =>
      rw [slices, hsize, List.filter_cons_of_neg (by simp [hsize])]
      exact ih
    | some n =>
      rw [slices, hsize, List.filter_cons_of_pos (by simp [hsize]), List.map_cons, ih]

theorem flatten_slices : ((slices decl els tail).map Prod.snd).flatten =
    tail.take (sliceTotal decl els) := by
  induction els generalizing tail with
  | nil => rfl
  | cons el els ih =>
    rw [slices, sliceTotal_cons]
    cases sliceSize decl el with
    | none =>
      rw [Option.getD_none, Nat.zero_add]
      exact ih
    | some n =>
      rw [Option.getD_some, List.take_add, ← ih]
      rfl

end

/-! ### The scan as a relation -/

/-- What an accepted element is read as, at an offset of the tail: nothing when it is unknown, or
the value of a declared name. -/
inductive Scanned (E : Externals) (decl : IndexMap String InputDecl) (tail : Bytes) (offset : ℕ)
    (el : Json) : Option (String × EnsembleValue) → Prop
  | unknown {name} : elementName el = some name → decl.get? name = none →
      Scanned E decl tail offset el none
  | json {name d data} : elementName el = some name → decl.get? name = some d → d.ty = .json →
      el.get "data" = some data → Scanned E decl tail offset el (some (name, .json data))
  | marker {name d marker bytes ct} : elementName el = some name → decl.get? name = some d →
      d.ty = .binary → el.get "data" = some marker →
      decodeBinaryMarker E marker = .ok (bytes, ct) →
      Scanned E decl tail offset el (some (name, .binary bytes ct none none))
  | slice {name d size} : elementName el = some name → decl.get? name = some d → d.ty = .binary →
      el.get "data" = none → binaryDataSize el = some size →
      Scanned E decl tail offset el (some (name, .binary ((tail.drop offset).take size.toNat)
        (d.contentType.getD octetStream) d.shape d.datatype))

/-- Go on behind an element. -/
def EnvelopeScan.push (scan : EnvelopeScan) (decl : IndexMap String InputDecl) (el : Json)
    (read : Option (String × EnsembleValue)) : EnvelopeScan where
  values := match read with
    | none => scan.values
    | some e => scan.values.insert e.1 e.2
  offset := scan.offset + (sliceSize decl el).getD 0

@[simp]
theorem EnvelopeScan.push_offset (scan : EnvelopeScan) (decl : IndexMap String InputDecl)
    (el : Json) (read : Option (String × EnsembleValue)) :
    (scan.push decl el read).offset = scan.offset + (sliceSize decl el).getD 0 := rfl

/-- The elements are accepted one after the other; no declared name is read twice and no slice goes
past the tail. -/
inductive ScanRun (E : Externals) (decl : IndexMap String InputDecl) (tail : Bytes) :
    EnvelopeScan → List Json → EnvelopeScan → Prop
  | nil {scan} : ScanRun E decl tail scan [] scan
  | cons {scan scan' el els read} : Scanned E decl tail scan.offset el read →
      (∀ e, read = some e → e.1 ∉ scan.values.keys) →
      scan.offset + (sliceSize decl el).getD 0 ≤ tail.length →
      ScanRun E decl tail (scan.push decl el read) els scan' →
      ScanRun E decl tail scan (el :: els) scan'

section

variable {E : Externals} {decl : IndexMap String InputDecl} {tolerate : Bool} {tail : Bytes}
  {scan scan' : EnvelopeScan} {el : Json} {els : List Json}

variable {name : String} {offset : ℕ}

theorem sliceTail_eq_ok {stop : ℕ} {size : UInt64} {slice : Bytes} :
    sliceTail tail offset name size = .ok (slice, stop) ↔
      offset + size.toNat < 2 ^ 64 ∧ offset + size.toNat ≤ tail.length ∧
      slice = (tail.drop offset).take size.toNat ∧ stop = offset + size.toNat := by
  simp only [sliceTail, bind_eq_ok, rejectIf_eq_ok, pure_eq_ok, Prod.mk.injEq,
    decide_eq_false_iff_not, not_le, not_lt]
  constructor
  · rintro ⟨_, hfits, _, hstop, rfl, rfl⟩
    exact ⟨hfits, hstop, rfl, rfl⟩
  · rintro ⟨hfits, hstop, rfl, rfl⟩
    exact ⟨(), hfits, (), hstop, rfl, rfl⟩

variable {v : EnsembleValue} {d : InputDecl}

/-- A declared element is read at the offset, and takes its slice. -/
theorem readDeclared_eq_ok {stop : ℕ} (hname : elementName el = some name)
    (hd : decl.get? name = some d) (hoffset : offset ≤ tail.length)
    (h : readDeclared E tail offset name d el = .ok (v, stop)) :
    Scanned E decl tail offset el (some (name, v)) ∧
      stop = offset + (sliceSize decl el).getD 0 ∧ stop ≤ tail.length := by
  have hsize : sliceSize decl el = if d.ty = .binary && (el.get "data").isNone then
      (binaryDataSize el).map UInt64.toNat else none := by
    rw [sliceSize, hname, Option.bind_some, hd]
  rw [hsize]
  rw [readDeclared] at h
  cases hty : d.ty with
  | json =>
    simp only [hty, bind_eq_ok, okOr_eq_ok] at h
    obtain ⟨data, hdata, rfl, rfl⟩ := h
    exact ⟨.json hname hd hty hdata, by simp, hoffset⟩
  | binary =>
    cases hdata : el.get "data" with
    | some marker =>
      simp only [hty, hdata, bind_eq_ok, Prod.exists] at h
      obtain ⟨bytes, ct, hdecode, rfl, rfl⟩ := h
      exact ⟨.marker hname hd hty hdata hdecode, by simp, hoffset⟩
    | none =>
      simp only [hty, hdata, bind_eq_ok, okOr_eq_ok, Prod.exists, sliceTail_eq_ok] at h
      obtain ⟨size, hsize, slice, stop', ⟨-, hstop, rfl, rfl⟩, rfl, rfl⟩ := h
      exact ⟨.slice hname hd hty hdata hsize, by simp [hsize], hstop⟩

theorem scanElement_eq_ok (h : scanElement E decl tolerate tail scan el = .ok scan')
    (hoffset : scan.offset ≤ tail.length) : ∃ read, Scanned E decl tail scan.offset el read ∧
      (∀ e, read = some e → e.1 ∉ scan.values.keys) ∧ scan' = scan.push decl el read ∧
      scan'.offset ≤ tail.length := by
  simp only [scanElement, bind_eq_ok, okOr_eq_ok] at h
  obtain ⟨name, hname, h⟩ := h
  cases hd : decl.get? name with
  | none =>
    have hsize : sliceSize decl el = (binaryDataSize el).map UInt64.toNat := by
      rw [sliceSize, elementName, hname, Option.bind_some, hd]
    simp only [hd, bind_eq_ok] at h
    obtain ⟨_, -, h⟩ := h
    refine ⟨none, .unknown hname hd, fun e he => absurd he (by simp), ?_⟩
    cases hbytes : binaryDataSize el with
    | none =>
      simp only [hbytes, pure_eq_ok] at h
      subst h
      simp [EnvelopeScan.push, hsize, hbytes, hoffset]
    | some size =>
      simp only [hbytes, bind_eq_ok, pure_eq_ok, Prod.exists, sliceTail_eq_ok] at h
      obtain ⟨_, _, ⟨-, hstop, -, rfl⟩, rfl⟩ := h
      simp [EnvelopeScan.push, hsize, hbytes, hstop]
  | some d =>
    simp only [hd, bind_eq_ok, pure_eq_ok, Prod.exists] at h
    obtain ⟨v, stop, hread, _, hfresh, rfl⟩ := h
    obtain ⟨hscanned, rfl, hle⟩ := readDeclared_eq_ok hname hd hoffset hread
    refine ⟨some (name, v), hscanned, fun e he => ?_, rfl, hle⟩
    rw [← Option.some.inj he]
    simpa [IndexMap.contains] using hfresh

/-- The loop of the scan is a run. -/
theorem scanRun_of_foldlM (h : els.foldlM (scanElement E decl tolerate tail) scan = .ok scan')
    (hoffset : scan.offset ≤ tail.length) : ScanRun E decl tail scan els scan' := by
  induction els generalizing scan with
  | nil =>
    obtain rfl := pure_eq_ok.mp h
    exact .nil
  | cons el els ih =>
    rw [List.foldlM_cons, bind_eq_ok] at h
    obtain ⟨scan₁, hel, h⟩ := h
    obtain ⟨read, hscanned, hfresh, rfl, hle⟩ := scanElement_eq_ok hel hoffset
    exact .cons hscanned hfresh hle (ih h hle)

/-- A declared element that reads as a value is read as it. -/
theorem readDeclared_of_scanned (hlen : tail.length < 2 ^ 64)
    (h : Scanned E decl tail offset el (some (name, v)))
    (hle : offset + (sliceSize decl el).getD 0 ≤ tail.length) :
    elementName el = some name ∧ ∃ d, decl.get? name = some d ∧
      readDeclared E tail offset name d el = .ok (v, offset + (sliceSize decl el).getD 0) := by
  cases h with
  | @json _ d _ hname hd hty hdata =>
    have hsize : sliceSize decl el = none := by
      simp [sliceSize, hname, hd, hty]
    exact ⟨hname, d, hd, by simp [readDeclared, hty, hdata, hsize, okOr]⟩
  | @marker _ d _ _ _ hname hd hty hdata hdecode =>
    have hsize : sliceSize decl el = none := by
      simp [sliceSize, hname, hd, hdata]
    refine ⟨hname, d, hd, ?_⟩
    simp only [readDeclared, hty, hdata, hdecode, hsize]
    rfl
  | @slice _ d size hname hd hty hdata hbytes =>
    have hsize : sliceSize decl el = some size.toNat := by
      simp [sliceSize, hname, hd, hty, hdata, hbytes]
    rw [hsize, Option.getD_some] at hle ⊢
    have hslice : sliceTail tail offset name size =
        .ok ((tail.drop offset).take size.toNat, offset + size.toNat) :=
      sliceTail_eq_ok.mpr ⟨hle.trans_lt hlen, hle, rfl, rfl⟩
    refine ⟨hname, d, hd, ?_⟩
    simp only [readDeclared, hty, hdata, hbytes]
    exact bind_eq_ok.mpr ⟨size, rfl, bind_eq_ok.mpr ⟨_, hslice, rfl⟩⟩

variable {read : Option (String × EnsembleValue)}

theorem scanElement_of_scanned (hlen : tail.length < 2 ^ 64)
    (hscanned : Scanned E decl tail scan.offset el read)
    (hfresh : ∀ e, read = some e → e.1 ∉ scan.values.keys)
    (hle : scan.offset + (sliceSize decl el).getD 0 ≤ tail.length)
    (htolerate : tolerate = true ∨ read ≠ none) :
    scanElement E decl tolerate tail scan el = .ok (scan.push decl el read) := by
  simp only [scanElement, bind_eq_ok, okOr_eq_ok]
  cases read with
  | none =>
    cases hscanned with
    | @unknown name hname hd =>
      have hsize : sliceSize decl el = (binaryDataSize el).map UInt64.toNat := by
        rw [sliceSize, hname, Option.bind_some, hd]
      refine ⟨name, hname, ?_⟩
      simp only [hd, bind_eq_ok]
      refine ⟨(), by simpa using htolerate, ?_⟩
      cases hbytes : binaryDataSize el with
      | none => simp [EnvelopeScan.push, hsize, hbytes]
      | some size =>
        rw [hsize, hbytes, Option.map_some, Option.getD_some] at hle
        have hslice : sliceTail tail scan.offset name size =
            .ok ((tail.drop scan.offset).take size.toNat, scan.offset + size.toNat) :=
          sliceTail_eq_ok.mpr ⟨hle.trans_lt hlen, hle, rfl, rfl⟩
        refine bind_eq_ok.mpr ⟨_, hslice, ?_⟩
        simp [EnvelopeScan.push, hsize, hbytes]
  | some e =>
    obtain ⟨name, v⟩ := e
    obtain ⟨hname, d, hd, hread⟩ := readDeclared_of_scanned hlen hscanned hle
    refine ⟨name, hname, ?_⟩
    simp only [hd, bind_eq_ok]
    refine ⟨_, hread, (), ?_, rfl⟩
    simpa [IndexMap.contains] using hfresh (name, v) rfl

/-- A run whose elements are declared, or tolerated, is the loop of the scan. -/
theorem foldlM_of_scanRun (hlen : tail.length < 2 ^ 64) (h : ScanRun E decl tail scan els scan')
    (htolerate : tolerate = true ∨
      ∀ el ∈ els, ∃ name d, elementName el = some name ∧ decl.get? name = some d) :
    els.foldlM (scanElement E decl tolerate tail) scan = .ok scan' := by
  induction h with
  | nil => rfl
  | @cons scan _ el els read hscanned hfresh hle _ ih =>
    have hread : tolerate = true ∨ read ≠ none := by
      refine htolerate.imp_right fun hdeclared hnone => ?_
      obtain ⟨name, d, hname, hd⟩ := hdeclared el List.mem_cons_self
      subst hnone
      cases hscanned with
      | unknown hname' hd' =>
        obtain rfl := Option.some.inj (hname.symm.trans hname')
        exact absurd (hd.symm.trans hd') (by simp)
    exact bind_eq_ok.mpr ⟨_, scanElement_of_scanned hlen hscanned hfresh hle hread,
      ih (htolerate.imp_right fun hdeclared el hel => hdeclared el (List.mem_cons_of_mem _ hel))⟩

/-! ### What a run reads -/

theorem ScanRun.offset_eq (h : ScanRun E decl tail scan els scan') :
    scan'.offset = scan.offset + sliceTotal decl els := by
  induction h with
  | nil => rfl
  | cons _ _ _ _ ih => rw [ih, sliceTotal_cons, EnvelopeScan.push_offset, Nat.add_assoc]

theorem ScanRun.offset_le (h : ScanRun E decl tail scan els scan')
    (hoffset : scan.offset ≤ tail.length) : scan'.offset ≤ tail.length := by
  induction h with
  | nil => exact hoffset
  | cons _ _ hle _ ih => exact ih hle

/-- What is read stays. -/
theorem ScanRun.get?_of_get? (h : ScanRun E decl tail scan els scan')
    (hv : scan.values.get? name = some v) : scan'.values.get? name = some v := by
  induction h with
  | nil => exact hv
  | @cons scan _ el _ read _ hfresh _ _ ih =>
    refine ih ?_
    cases read with
    | none => exact hv
    | some e =>
      have hne : name ≠ e.1 := by
        rintro rfl
        exact hfresh e rfl (IndexMap.mem_keys_of_get? hv)
      rw [EnvelopeScan.push, IndexMap.get?_insert, if_neg hne, hv]

/-- A declared element with a slice is read as that slice. -/
theorem Scanned.eq_slice {n : ℕ} (h : Scanned E decl tail offset el read)
    (hsize : sliceSize decl el = some n) (hname : elementName el = some name)
    (hd : decl.get? name = some d) :
    read = some (name, .binary ((tail.drop offset).take n) (d.contentType.getD octetStream)
      d.shape d.datatype) := by
  rw [sliceSize, hname, Option.bind_some, hd] at hsize
  cases h with
  | unknown hname' hnone =>
    obtain rfl := Option.some.inj (hname.symm.trans hname')
    exact absurd (hd.symm.trans hnone) (by simp)
  | json hname' hd' hty hdata => exact absurd hsize (by simp [hdata])
  | marker hname' hd' hty hdata hdecode => exact absurd hsize (by simp [hdata])
  | slice hname' hd' hty hdata hbytes =>
    obtain rfl := Option.some.inj (hname.symm.trans hname')
    obtain rfl := Option.some.inj (hd.symm.trans hd')
    obtain rfl := Option.some.inj (by simpa [hty, hdata, hbytes] using hsize)
    rfl

/-- **The slices of a run.** Each has the size its element declares, and is the value of the element
when that is declared. -/
theorem ScanRun.slices (h : ScanRun E decl tail scan els scan') :
    ∀ p ∈ slices decl els (tail.drop scan.offset), sliceSize decl p.1 = some p.2.length ∧
      ∀ name d, elementName p.1 = some name → decl.get? name = some d →
        scan'.values.get? name =
          some (.binary p.2 (d.contentType.getD octetStream) d.shape d.datatype) := by
  induction h with
  | nil => exact fun p hp => absurd hp List.not_mem_nil
  | @cons scan scan' el els read hscanned hfresh hle hrun ih =>
    rw [Ensemble.slices]
    cases hsize : sliceSize decl el with
    | none =>
      rw [EnvelopeScan.push_offset, hsize] at ih
      exact ih
    | some n =>
      rw [EnvelopeScan.push_offset, hsize, Option.getD_some, ← List.drop_drop] at ih
      rw [hsize, Option.getD_some] at hle
      refine List.forall_mem_cons.mpr ⟨⟨?_, ?_⟩, ih⟩
      · rw [List.length_take, List.length_drop, hsize, Nat.min_eq_left (by omega)]
      · intro name d hname hd
        obtain rfl := hscanned.eq_slice hsize hname hd
        refine hrun.get?_of_get? ?_
        rw [EnvelopeScan.push, IndexMap.get?_insert, if_pos rfl]

/-- Every element of a run is read, behind the slices of those in front of it. -/
theorem ScanRun.read_at {front back : List Json}
    (h : ScanRun E decl tail scan (front ++ el :: back) scan') :
    ∃ read, Scanned E decl tail (scan.offset + sliceTotal decl front) el read ∧
      ∀ e, read = some e → scan'.values.get? e.1 = some e.2 := by
  induction front generalizing scan with
  | nil =>
    cases h with
    | @cons _ _ _ _ read hscanned _ _ hrun =>
      refine ⟨read, hscanned, fun e he => hrun.get?_of_get? ?_⟩
      rw [he, EnvelopeScan.push, IndexMap.get?_insert, if_pos rfl]
  | cons first front ih =>
    cases h with
    | cons _ _ _ hrun =>
      rw [sliceTotal_cons, ← Nat.add_assoc]
      exact ih hrun

/-- What a run has read was there before, or is the value of one of its elements. -/
theorem ScanRun.exists_scanned (h : ScanRun E decl tail scan els scan')
    (hv : scan'.values.get? name = some v) :
    scan.values.get? name = some v ∨ ∃ front el back, els = front ++ el :: back ∧
      Scanned E decl tail (scan.offset + sliceTotal decl front) el (some (name, v)) := by
  induction h with
  | nil => exact .inl hv
  | @cons scan _ el els read hscanned _ _ _ ih =>
    rcases ih hv with hpush | ⟨front, el', back, rfl, hlater⟩
    · cases read with
      | none => exact .inl hpush
      | some e =>
        rw [EnvelopeScan.push, IndexMap.get?_insert] at hpush
        split at hpush
        · rename_i hname
          obtain rfl := Option.some.inj hpush
          exact .inr ⟨[], el, els, rfl, hname ▸ hscanned⟩
        · exact .inl hpush
    · rw [EnvelopeScan.push_offset, Nat.add_assoc, ← sliceTotal_cons] at hlater
      exact .inr ⟨el :: front, el', back, rfl, hlater⟩

/-! ### The declared inputs -/

/-- A value of a declared type that is not raw: JSON in the head of an envelope has been parsed. -/
def EnsembleValue.HasParsedType (v : EnsembleValue) (ty : InputType) : Prop :=
  v.hasType ty = true ∧ ∀ bytes, v ≠ .rawJson bytes

theorem hasParsedType_json (data : Json) : (EnsembleValue.json data).HasParsedType .json :=
  ⟨rfl, fun _ h => absurd h (by simp)⟩

theorem Scanned.hasType (h : Scanned E decl tail offset el (some (name, v))) :
    ∃ d, decl.get? name = some d ∧ v.HasParsedType d.ty := by
  cases h with
  | json _ hd hty _ => exact ⟨_, hd, hty ▸ hasParsedType_json _⟩
  | marker _ hd hty _ _ => exact ⟨_, hd, hty ▸ rfl, by simp⟩
  | slice _ hd hty _ _ => exact ⟨_, hd, hty ▸ rfl, by simp⟩

/-- What the walk over the declared inputs does with those the envelope did not carry. -/
structure Fill (entries : List (String × InputDecl))
    (values values' : IndexMap String EnsembleValue) (absent absent' : List String) : Prop where
  mem_absent : ∀ n, n ∈ absent' ↔
    n ∈ absent ∨ n ∉ values.keys ∧ ∃ d, (n, d) ∈ entries ∧ d.optional = true
  get?_eq_some : ∀ n v, values'.get? n = some v ↔ values.get? n = some v ∨
    n ∉ values.keys ∧ ∃ d data, (n, d) ∈ entries ∧ d.required = false ∧ d.default = some data ∧
      v = .json data
  covered : ∀ n d, (n, d) ∈ entries → n ∈ values.keys ∨ d.required = false

variable {values values' : IndexMap String EnsembleValue} {absent : List String}
  {entries : List (String × InputDecl)}

theorem fill_of_foldlM (hnodup : (entries.map Prod.fst).Nodup) {absent' : List String}
    (h : entries.foldlM fillDeclared (values, absent) = .ok (values', absent')) :
    Fill entries values values' absent absent' := by
  induction entries generalizing values absent with
  | nil =>
    obtain ⟨rfl, rfl⟩ := Prod.mk.inj (pure_eq_ok.mp h)
    exact ⟨by simp, by simp, by simp⟩
  | cons entry entries ih =>
    obtain ⟨name, d⟩ := entry
    rw [List.map_cons, List.nodup_cons] at hnodup
    rw [List.foldlM_cons, bind_eq_ok] at h
    obtain ⟨st, hentry, h⟩ := h
    have hkey : ∀ {n v}, values.get? n = some v → n ∈ values.keys := IndexMap.mem_keys_of_get?
    rcases fillDeclared_eq_ok hentry with ⟨hmem, rfl⟩ | ⟨hmem, hreq, v, hdefault, rfl⟩ |
      ⟨hmem, hopt, rfl⟩
    · obtain ⟨habsent, hget, hcovered⟩ := ih hnodup.2 h
      exact ⟨by grind, by grind, by grind⟩
    · obtain ⟨habsent, hget, hcovered⟩ := ih hnodup.2 h
      simp only [IndexMap.mem_keys_insert, IndexMap.get?_insert] at habsent hget hcovered
      have hnone : d.optional = false := by simp [InputDecl.optional, hdefault]
      exact ⟨by grind, by grind, by grind⟩
    · obtain ⟨habsent, hget, hcovered⟩ := ih hnodup.2 h
      have hreq : d.required = false ∧ d.default = none := by
        simpa [InputDecl.optional] using hopt
      exact ⟨by grind, by grind, by grind⟩

theorem exists_fillDeclared (absent : List String) (h : name ∈ values.keys ∨ d.required = false) :
    ∃ st, fillDeclared (values, absent) (name, d) = .ok st := by
  by_cases hmem : name ∈ values.keys
  · exact ⟨_, if_pos (by simpa [IndexMap.contains] using hmem)⟩
  · have hreq := h.resolve_left hmem
    rw [fillDeclared, if_neg (by simpa [IndexMap.contains] using hmem), hreq]
    cases d.default with
    | none => exact ⟨_, rfl⟩
    | some data => exact ⟨_, rfl⟩

/-- The walk over the declared inputs succeeds when no required one is missing. -/
theorem exists_fill (absent : List String)
    (h : ∀ n d, (n, d) ∈ entries → n ∈ values.keys ∨ d.required = false) :
    ∃ st, entries.foldlM fillDeclared (values, absent) = .ok st := by
  induction entries generalizing values absent with
  | nil => exact ⟨_, rfl⟩
  | cons entry entries ih =>
    obtain ⟨⟨values', absent'⟩, hentry⟩ :=
      exists_fillDeclared absent (h entry.1 entry.2 List.mem_cons_self)
    have hrest : ∀ n d, (n, d) ∈ entries → n ∈ values'.keys ∨ d.required = false := fun n d hd =>
      (h n d (List.mem_cons_of_mem _ hd)).imp_left ((fillDeclared_keeps hentry).1 n)
    obtain ⟨st, hst⟩ := ih absent' hrest
    exact ⟨st, bind_eq_ok.mpr ⟨_, hentry, hst⟩⟩

/-! ### The request root -/

/-- The tail is cut among the elements that take a slice, in their order, and the declared ones have
theirs as their value. -/
structure SlicedBy (decl : IndexMap String InputDecl) (inputs : List Json) (tail : Bytes)
    (values : IndexMap String EnsembleValue) : Prop where
  elements : (slices decl inputs tail).map Prod.fst =
    inputs.filter fun el => (sliceSize decl el).isSome
  cut : ((slices decl inputs tail).map Prod.snd).flatten = tail
  size : ∀ p ∈ slices decl inputs tail, sliceSize decl p.1 = some p.2.length
  assigned : ∀ p ∈ slices decl inputs tail, ∀ name d, elementName p.1 = some name →
    decl.get? name = some d → values.get? name =
      some (.binary p.2 (d.contentType.getD octetStream) d.shape d.datatype)

/-- Every declared name has a value or is absent, not both, and what is absent is optional. -/
structure Complete (decl : IndexMap String InputDecl) (values : IndexMap String EnsembleValue)
    (absent : List String) : Prop where
  declared : ∀ name, name ∈ values.keys ∨ name ∈ absent ↔ name ∈ decl.keys
  disjoint : ∀ name ∈ absent, name ∉ values.keys
  optional : ∀ name ∈ absent, ∀ d, decl.get? name = some d → d.required = false

variable {payload : EnsembleValue}

theorem parseNamedInputs_eq_ok
    (h : parseNamedInputs E decl tolerate payload = .ok (values, absent)) :
    ∃ head tail inputs scan, splitPayload payload = .ok (head, tail) ∧
      (head.get "inputs").bind Json.asArray = some inputs ∧ ScanRun E decl tail {} inputs scan ∧
      scan.offset = tail.length ∧ Fill decl.entries scan.values values [] absent := by
  simp only [parseNamedInputs, bind_eq_ok, Prod.exists, okOr_eq_ok] at h
  obtain ⟨head, tail, hsplit, inputs, hinputs, scan, hscan, _, hall, hfill⟩ := h
  exact ⟨head, tail, inputs, scan, hsplit, hinputs, scanRun_of_foldlM hscan (Nat.zero_le _),
    by simpa using hall, fill_of_foldlM decl.nodup hfill⟩

variable {inputs : List Json}

/-- An envelope is accepted when its elements are a run over the whole tail and no required input is
missing. -/
theorem exists_parseNamedInputs {head : Json} (hsplit : splitPayload payload = .ok (head, tail))
    (hlen : tail.length < 2 ^ 64) (hinputs : (head.get "inputs").bind Json.asArray = some inputs)
    (hrun : ScanRun E decl tail {} inputs scan) (hall : scan.offset = tail.length)
    (hcovered : ∀ n d, (n, d) ∈ decl.entries → n ∈ scan.values.keys ∨ d.required = false)
    (htolerate : tolerate = true ∨
      ∀ el ∈ inputs, ∃ name d, elementName el = some name ∧ decl.get? name = some d) :
    ∃ values absent, parseNamedInputs E decl tolerate payload = .ok (values, absent) ∧
      Fill decl.entries scan.values values [] absent := by
  obtain ⟨⟨values, absent⟩, hfill⟩ := exists_fill [] hcovered
  refine ⟨values, absent, ?_, fill_of_foldlM decl.nodup hfill⟩
  simp only [parseNamedInputs, bind_eq_ok, Prod.exists, okOr_eq_ok]
  exact ⟨head, tail, hsplit, inputs, hinputs, scan, foldlM_of_scanRun hlen hrun htolerate, (),
    by simpa using hall, hfill⟩

theorem ScanRun.slicedBy (h : ScanRun E decl tail {} inputs scan) (hall : scan.offset = tail.length)
    (hfill : Fill decl.entries scan.values values [] absent) :
    SlicedBy decl inputs tail values := by
  have hslices := h.slices
  refine ⟨map_fst_slices, ?_, fun p hp => (hslices p hp).1, fun p hp name d hname hd => ?_⟩
  · have htotal : sliceTotal decl inputs = tail.length := by
      rw [← hall, h.offset_eq]
      exact (Nat.zero_add _).symm
    rw [flatten_slices, htotal, List.take_length]
  · exact (hfill.get?_eq_some name _).mpr (.inl ((hslices p hp).2 name d hname hd))

/-- What the scan has read is declared, and of the declared type. -/
theorem ScanRun.hasType (h : ScanRun E decl tail {} inputs scan)
    (hv : scan.values.get? name = some v) :
    ∃ d, decl.get? name = some d ∧ v.HasParsedType d.ty := by
  rcases h.exists_scanned hv with hinit | ⟨_, _, _, -, hscanned⟩
  · exact absurd hinit (by simp [IndexMap.get?, IndexMap.empty])
  · exact hscanned.hasType

theorem complete_of_fill (hdeclared : ∀ name v, values.get? name = some v → name ∈ decl.keys)
    (h : Fill decl.entries values values' [] absent) : Complete decl values' absent := by
  have hkeys {m : IndexMap String EnsembleValue} {name : String} :
      name ∈ m.keys ↔ ∃ v, m.get? name = some v := by
    rw [← not_iff_not, ← IndexMap.get?_eq_none_iff, Option.eq_none_iff_forall_ne_some]
    simp
  have hentry {name : String} : name ∈ decl.keys ↔ ∃ d, (name, d) ∈ decl.entries := by
    simp [IndexMap.keys]
  refine ⟨fun name => ⟨?_, fun hname => ?_⟩, fun name hname hmem => ?_, fun name hname d hd => ?_⟩
  · rintro (hmem | habsent)
    · obtain ⟨v, hv⟩ := hkeys.mp hmem
      rcases (h.get?_eq_some name v).mp hv with hold | ⟨-, d, _, hd, -⟩
      · exact hdeclared name v hold
      · exact hentry.mpr ⟨d, hd⟩
    · obtain hnil | ⟨-, d, hd, -⟩ := (h.mem_absent name).mp habsent
      · exact absurd hnil List.not_mem_nil
      · exact hentry.mpr ⟨d, hd⟩
  · obtain ⟨d, hd⟩ := hentry.mp hname
    by_cases hmem : name ∈ values.keys
    · obtain ⟨v, hv⟩ := hkeys.mp hmem
      exact .inl (hkeys.mpr ⟨v, (h.get?_eq_some name v).mpr (.inl hv)⟩)
    · have hreq := (h.covered name d hd).resolve_left hmem
      cases hdefault : d.default with
      | some data =>
        exact .inl (hkeys.mpr ⟨.json data,
          (h.get?_eq_some name _).mpr (.inr ⟨hmem, d, data, hd, hreq, hdefault, rfl⟩)⟩)
      | none =>
        refine .inr ((h.mem_absent name).mpr (.inr ⟨hmem, d, hd, ?_⟩))
        simp [InputDecl.optional, hreq, hdefault]
  · obtain hnil | ⟨hnotMem, d, hd, hopt⟩ := (h.mem_absent name).mp hname
    · exact absurd hnil List.not_mem_nil
    · obtain ⟨v, hv⟩ := hkeys.mp hmem
      rcases (h.get?_eq_some name v).mp hv with hold | ⟨-, d', data, hd', -, hdefault, -⟩
      · exact hnotMem (IndexMap.mem_keys_of_get? hold)
      · obtain rfl := IndexMap.eq_of_mem hd hd'
        simp [InputDecl.optional, hdefault] at hopt
  · obtain hnil | ⟨-, d', hd', hopt⟩ := (h.mem_absent name).mp hname
    · exact absurd hnil List.not_mem_nil
    · obtain rfl := IndexMap.eq_of_mem (IndexMap.mem_of_get? hd) hd'
      simp only [InputDecl.optional, Bool.and_eq_true, Bool.not_eq_true'] at hopt
      exact hopt.1

/-- The rules on a declaration leave a default to JSON inputs. -/
theorem ty_of_default (h : checkInputDecls (some decl) = .ok ()) (hd : (name, d) ∈ decl.entries)
    {data : Json} (hdefault : d.default = some data) : d.ty = .json := by
  have hcheck := forM_eq_ok.mp h (name, d) hd
  simp only [checkInputDecl, bind_eq_ok] at hcheck
  obtain ⟨_, -, hcheck⟩ := hcheck
  cases hty : d.ty with
  | json => rfl
  | binary =>
    simp only [hty, hdefault, bind_eq_ok] at hcheck
    obtain ⟨_, hsome, -⟩ := hcheck
    exact absurd hsome (by simp)

/-- **The request root of an envelope.** At every element the offset is the sum of the sizes so far
and inside the tail. When the envelope is accepted, the tail is exactly the slices of the elements
in their order, the values and the absent inputs are the declared ones, and the values have their
declared types where the declaration is one that the loader takes. -/
theorem envelope_partition (E : Externals) (decl : IndexMap String InputDecl) (tolerate : Bool)
    (payload : EnsembleValue) :
    (∀ head tail inputs, splitPayload payload = .ok (head, tail) →
      (head.get "inputs").bind Json.asArray = some inputs → ∀ front, front <+: inputs →
      ∀ scan, front.foldlM (scanElement E decl tolerate tail) {} = .ok scan →
        scan.offset = sliceTotal decl front ∧ scan.offset ≤ tail.length) ∧
    ∀ values absent,
      parseRootInputs E payload (some decl) tolerate = .ok (.named values absent) →
      (∃ head tail inputs, splitPayload payload = .ok (head, tail) ∧
        (head.get "inputs").bind Json.asArray = some inputs ∧
        SlicedBy decl inputs tail values) ∧
      Complete decl values absent ∧
      (checkInputDecls (some decl) = .ok () → ∀ name v, values.get? name = some v →
        ∃ d, decl.get? name = some d ∧ v.HasParsedType d.ty) := by
  refine ⟨fun _ tail _ _ _ front _ scan hscan => ?_, fun values absent h => ?_⟩
  · have hrun := scanRun_of_foldlM hscan (Nat.zero_le _)
    exact ⟨hrun.offset_eq.trans (Nat.zero_add _), hrun.offset_le (Nat.zero_le _)⟩
  · simp only [parseRootInputs, bind_eq_ok, Prod.exists] at h
    obtain ⟨_, _, h, rfl, rfl⟩ := h
    obtain ⟨head, tail, inputs, scan, hsplit, hinputs, hrun, hall, hfill⟩ :=
      parseNamedInputs_eq_ok h
    refine ⟨⟨head, tail, inputs, hsplit, hinputs, hrun.slicedBy hall hfill⟩,
      complete_of_fill (fun name v hv => ?_) hfill, fun hcheck name v hv => ?_⟩
    · obtain ⟨d, hd, -⟩ := hrun.hasType hv
      exact IndexMap.mem_keys_of_get? hd
    · rcases (hfill.get?_eq_some name v).mp hv with hscanned | ⟨-, d, data, hd, -, hdefault, rfl⟩
      · exact hrun.hasType hscanned
      · exact ⟨d, IndexMap.get?_eq_some_iff.mpr hd,
          ty_of_default hcheck hd hdefault ▸ hasParsedType_json data⟩

end

/-! ### Small envelopes -/

/-- An element of an envelope. -/
def element (name : String) (members : List (String × Json)) : Json :=
  .object (members ++ [("name", .string name)])

/-- The `parameters` of an element that announces bytes of the tail. -/
def binarySize (n : UInt64) : String × Json :=
  ("parameters", .object [("binary_data_size", .number (.posInt n))])

/-- A text, an image, and a text that may be left out. -/
def textAndImage : IndexMap String InputDecl :=
  ((IndexMap.empty.insert "text" ⟨.json, true, none, none, none, none⟩).insert
    "img" ⟨.binary, true, none, some "image/png", some [1, 3], some "FP32"⟩).insert
    "opt" ⟨.json, false, none, none, none, none⟩

/-- An envelope with the text and three bytes for the image. -/
def imageEnvelope : EnsembleValue :=
  .envelope (.object [("inputs", .array
    [element "text" [("data", .null)], element "img" [binarySize 3]])]) [0, 1, 2]

theorem textAndImage_partition : ∃ values,
    parseRootInputs plainExternals imageEnvelope (some textAndImage) false =
      .ok (.named values ["opt"]) ∧
    Complete textAndImage values ["opt"] ∧
    ∀ name v, values.get? name = some v →
      ∃ d, textAndImage.get? name = some d ∧ v.HasParsedType d.ty := by
  obtain ⟨values, h⟩ : ∃ values, parseRootInputs plainExternals imageEnvelope (some textAndImage)
      false = .ok (.named values ["opt"]) := ⟨_, rfl⟩
  obtain ⟨-, hcomplete, htypes⟩ :=
    (envelope_partition plainExternals textAndImage false imageEnvelope).2 values ["opt"] h
  exact ⟨values, h, hcomplete, htypes rfl⟩

/-- A declaration that the loader does not take: a binary input with a default. The default is JSON,
and becomes the value of the input. -/
def binaryDefault : IndexMap String InputDecl :=
  IndexMap.empty.insert "img" ⟨.binary, false, some .null, none, none, none⟩

theorem binaryDefault_ill_typed :
    checkInputDecls (some binaryDefault) ≠ .ok () ∧ ∃ values,
      parseRootInputs plainExternals (.json (.object [("inputs", .array [])]))
        (some binaryDefault) false = .ok (.named values []) ∧
      values.get? "img" = some (.json .null) ∧
      ¬ (EnsembleValue.json .null).hasType .binary = true := by
  refine ⟨fun h => ?_, _, rfl, rfl, fun h => ?_⟩
  · cases h
  · cases h

end Ensemble

end LiteServer
