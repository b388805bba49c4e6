import LiteServer.Ensemble.Envelope
import LiteServer.Lib.LittleEndian

/-!
# The LSBE-1 container

An envelope in one frame, for transports without a metadata channel: the magic `LSB1`, the length of
the head as a little-endian `u64`, the JSON head, and the binary tail behind it. A frame that starts
with the magic is a container and nothing else; any other frame is JSON, or data.

A range of a buffer that is out of bounds panics, and so does an index sum that overflows; the
splitter checks the declared length before it cuts anything with it.

## Main results

* `splitEnvelope_eq_ok` — the accepted frames, and what their parts are
* `container_codec` — what is encoded is decoded, exactly the containers are accepted, and no frame
  makes the splitter panic
-/

namespace LiteServer

namespace Ensemble

open Checks

/-- `LSB1`. -/
def lsbMagic : Bytes := [76, 83, 66, 49]

/-- `&blob[start..stop]`. -/
def byteRange (blob : Bytes) (start stop : ℕ) : Except AppError Bytes := do
  rejectIf (start > stop)
    (.panicked s!"slice index starts at {start} but ends at {stop}")
  rejectIf (stop > blob.length)
    (.panicked s!"range end index {stop} out of range for slice of length {blob.length}")
  return (blob.take stop).drop start

/-- The container of a head and a tail. -/
def encodeLsbe1 (E : Externals) (head : Json) (tail : Bytes) : Bytes :=
  let headBytes := E.jsonToVec head
  lsbMagic ++ toLE 8 headBytes.length ++ headBytes ++ tail

/-- The error for bytes that are no container. -/
def malformedEnvelope : AppError :=
  .invalidRequestBody ("malformed LSBE-1 envelope container (expected 'LSB1' magic + u64 LE " ++
    "head length + JSON head + binary tail, D32)")

/-- The head and the tail of a container; a container that ends with its head has no tail. -/
def splitEnvelope (E : Externals) (blob : Bytes) : Except AppError (Json × Option Bytes) := do
  rejectIf (!lsbMagic.isPrefixOf blob) malformedEnvelope
  rejectIf (blob.length < 12) malformedEnvelope
  let headLen := ofLE (← byteRange blob 4 12)
  -- `checked_add`; on 64 bits a `u64` always fits `usize`
  let headEnd := 12 + headLen
  rejectIf (headEnd ≥ 2 ^ 64) malformedEnvelope
  rejectIf (headEnd > blob.length)
    (.invalidRequestBody "LSBE-1 envelope head length overruns the frame (D32)")
  match E.jsonFromSlice (← byteRange blob 12 headEnd) with
  | .error _ => .error (.invalidRequestBody "LSBE-1 envelope head is not valid JSON (D32)")
  | .ok head =>
    if headEnd = blob.length then return (head, none)
    else return (head, some (← byteRange blob headEnd blob.length))

/-- The payload a frame carries. -/
def ensemblePayloadFromBytes (E : Externals) (data : Bytes) (contentType : Option String) :
    Except AppError EnsembleValue :=
  if lsbMagic.isPrefixOf data then do
    let (head, tail) ← splitEnvelope E data
    return .envelope head (tail.getD [])
  else match E.jsonFromSlice data with
    | .ok v => .ok (.json v)
    | .error _ => .ok (.binary data (contentType.getD octetStream) none none)

/-! ### The accepted frames -/

variable {E : Externals}

/-- The frame is the magic, the length of a head in eight bytes, the head, and the tail. -/
def IsContainer (E : Externals) (blob : Bytes) (head : Json) (tail : Bytes) : Prop :=
  ∃ lenBytes headBytes, blob = lsbMagic ++ lenBytes ++ headBytes ++ tail ∧ lenBytes.length = 8 ∧
    headBytes.length = ofLE lenBytes ∧ E.jsonFromSlice headBytes = .ok head

variable {blob range : Bytes} {start stop : ℕ}

theorem byteRange_eq_ok :
    byteRange blob start stop = .ok range ↔
      start ≤ stop ∧ stop ≤ blob.length ∧ range = (blob.take stop).drop start := by
  simp only [byteRange, bind_eq_ok, rejectIf_eq_ok, pure_eq_ok, decide_eq_false_iff_not, not_lt]
  constructor
  · rintro ⟨_, hstart, _, hstop, rfl⟩
    exact ⟨hstart, hstop, rfl⟩
  · rintro ⟨hstart, hstop, rfl⟩
    exact ⟨(), hstart, (), hstop, rfl⟩

/-- The range between two parts. -/
theorem byteRange_append {front back : Bytes} (hstart : front.length = start)
    (hstop : start + range.length = stop) :
    byteRange (front ++ range ++ back) start stop = .ok range := by
  refine byteRange_eq_ok.mpr ⟨by omega, by simp; omega, ?_⟩
  rw [List.take_left' (by simp; omega), List.drop_left' hstart]

/-- A range cut off a buffer is put back. -/
theorem take_append_byteRange (h : byteRange blob start stop = .ok range) :
    blob.take stop = blob.take start ++ range := by
  obtain ⟨hstart, -, rfl⟩ := byteRange_eq_ok.mp h
  have htake : (blob.take stop).take start = blob.take start := by
    rw [List.take_take, Nat.min_eq_left hstart]
  rw [← htake, List.take_append_drop]

variable {head : Json} {tail : Option Bytes}

theorem isContainer_of_splitEnvelope (h : splitEnvelope E blob = .ok (head, tail)) :
    IsContainer E blob head (tail.getD []) ∧ tail ≠ some [] := by
  simp only [splitEnvelope, bind_eq_ok] at h
  obtain ⟨_, hmagic, _, -, lenBytes, hlen, _, -, _, hend, headBytes, hhead, h⟩ := h
  have hmagic : blob.take 4 = lsbMagic := by
    have hpre : lsbMagic <+: blob := List.isPrefixOf_iff_prefix.mp (by simpa using hmagic)
    exact (List.prefix_iff_eq_take.mp hpre).symm
  -- the frame up to the end of its head
  have hfront : blob.take (12 + ofLE lenBytes) = lsbMagic ++ lenBytes ++ headBytes := by
    rw [take_append_byteRange hhead, take_append_byteRange hlen, hmagic]
  have hlenLength : lenBytes.length = 8 := by
    obtain ⟨-, hle, rfl⟩ := byteRange_eq_ok.mp hlen
    simp [hle]
  have hheadLength : headBytes.length = ofLE lenBytes := by
    obtain ⟨-, hle, rfl⟩ := byteRange_eq_ok.mp hhead
    simp [hle]
  split at h
  · exact absurd h (by simp)
  · rename_i head' hjson
    split at h
    · rename_i heq
      obtain ⟨rfl, rfl⟩ := Prod.mk.inj (pure_eq_ok.mp h)
      refine ⟨⟨lenBytes, headBytes, ?_, hlenLength, hheadLength, hjson⟩, by simp⟩
      rw [← hfront, heq, List.take_length]
      exact (List.append_nil blob).symm
    · obtain ⟨rest, hrest, h⟩ := bind_eq_ok.mp h
      obtain ⟨rfl, rfl⟩ := Prod.mk.inj (pure_eq_ok.mp h)
      refine ⟨⟨lenBytes, headBytes, ?_, hlenLength, hheadLength, hjson⟩, ?_⟩
      · rw [← hfront, Option.getD_some, ← take_append_byteRange hrest, List.take_length]
      · obtain ⟨hle, -, rfl⟩ := byteRange_eq_ok.mp hrest
        rw [List.take_length, Ne, Option.some.injEq, List.drop_eq_nil_iff]
        omega

theorem splitEnvelope_of_isContainer {tail : Bytes} (hblob : blob.length < 2 ^ 64)
    (h : IsContainer E blob head tail) :
    splitEnvelope E blob = .ok (head, if tail = [] then none else some tail) := by
  obtain ⟨lenBytes, headBytes, rfl, hlen, hhead, hjson⟩ := h
  have hlength : (lsbMagic ++ lenBytes ++ headBytes ++ tail).length =
      12 + ofLE lenBytes + tail.length := by
    simp [lsbMagic]
    omega
  have hmagic : lsbMagic.isPrefixOf (lsbMagic ++ lenBytes ++ headBytes ++ tail) = true := by
    rw [List.isPrefixOf_iff_prefix, List.append_assoc, List.append_assoc]
    exact List.prefix_append _ _
  have hrange : byteRange (lsbMagic ++ lenBytes ++ headBytes ++ tail) 4 12 = .ok lenBytes := by
    rw [List.append_assoc _ headBytes]
    exact byteRange_append rfl (by rw [hlen])
  have hheadRange : byteRange (lsbMagic ++ lenBytes ++ headBytes ++ tail) 12 (12 + ofLE lenBytes) =
      .ok headBytes :=
    byteRange_append (by simp [lsbMagic, hlen]) (by rw [hhead])
  simp only [splitEnvelope, bind_eq_ok, hlength]
  refine ⟨(), by rw [hmagic]; rfl, (), by simp; omega, lenBytes, hrange, (), by simp; omega, (),
    by simp, headBytes, hheadRange, ?_⟩
  rw [hjson]
  dsimp only
  cases tail with
  | nil =>
    rw [if_pos (by simp), if_pos rfl]
    rfl
  | cons b tail =>
    have hne : ¬ 12 + ofLE lenBytes = 12 + ofLE lenBytes + (b :: tail).length := by simp
    have htail : byteRange (lsbMagic ++ lenBytes ++ headBytes ++ b :: tail) (12 + ofLE lenBytes)
        (12 + ofLE lenBytes + (b :: tail).length) = .ok (b :: tail) := by
      rw [← List.append_nil (lsbMagic ++ lenBytes ++ headBytes ++ b :: tail)]
      exact byteRange_append (by simp [lsbMagic]; omega) rfl
    rw [if_neg hne, htail, if_neg (List.cons_ne_nil b tail)]
    rfl

theorem splitEnvelope_eq_ok (hblob : blob.length < 2 ^ 64) :
    splitEnvelope E blob = .ok (head, tail) ↔
      IsContainer E blob head (tail.getD []) ∧ tail ≠ some [] := by
  refine ⟨isContainer_of_splitEnvelope, fun ⟨hcontainer, hne⟩ => ?_⟩
  rw [splitEnvelope_of_isContainer hblob hcontainer]
  cases tail with
  | none => rfl
  | some tail => rw [Option.getD_some, if_neg fun h : tail = [] => hne (congrArg some h)]

/-! ### Encoding and panics -/

theorem isContainer_encodeLsbe1 {tail : Bytes}
    (hround : E.jsonFromSlice (E.jsonToVec head) = .ok head)
    (hsize : (encodeLsbe1 E head tail).length < 2 ^ 64) :
    IsContainer E (encodeLsbe1 E head tail) head tail := by
  have hhead : (E.jsonToVec head).length < 256 ^ 8 := by
    simp only [encodeLsbe1, List.length_append] at hsize
    omega
  exact ⟨_, _, rfl, length_toLE 8 _, (ofLE_toLE hhead).symm, hround⟩

/-- Every error of the splitter is an answer to the client. -/
theorem splitEnvelope_not_panicked (blob : Bytes) :
    ErrorsIn (fun e => ∀ msg, e ≠ .panicked msg) (splitEnvelope E blob) := by
  have hrange {start stop : ℕ} (hstart : start ≤ stop) (hstop : stop ≤ blob.length) :
      ErrorsIn (fun e => ∀ msg, e ≠ .panicked msg) (byteRange blob start stop) := by
    rw [byteRange_eq_ok.mpr ⟨hstart, hstop, rfl⟩]
    exact fun e he => absurd he (by simp)
  refine (ErrorsIn.rejectIf fun msg => by simp [malformedEnvelope]).bind fun _ _ => ?_
  refine (ErrorsIn.rejectIf fun msg => by simp [malformedEnvelope]).bind fun _ hlen => ?_
  have hlen : 12 ≤ blob.length := by simpa using hlen
  refine (hrange (by omega) hlen).bind fun lenBytes _ => ?_
  refine (ErrorsIn.rejectIf fun msg => by simp [malformedEnvelope]).bind fun _ _ => ?_
  refine (ErrorsIn.rejectIf fun msg => by simp).bind fun _ hend => ?_
  have hend : 12 + ofLE lenBytes ≤ blob.length := by simpa using hend
  refine (hrange (by omega) hend).bind fun headBytes _ => ?_
  split
  · intro e he msg
    rw [← Except.error.inj he]
    simp
  · split
    · exact fun e he => absurd he (by simp [pure, Except.pure])
    · exact (hrange hend le_rfl).bind fun rest _ e he => absurd he (by simp [pure, Except.pure])

/-- **The container.** What `encodeLsbe1` writes is read back as the envelope it was made of, as
long as the head survives its own serialization. A frame is split exactly when it is a container,
into its parts. No frame makes the splitter panic, whatever length it declares. The length of a
buffer is a `usize`. -/
theorem container_codec (E : Externals) :
    (∀ head tail contentType, E.jsonFromSlice (E.jsonToVec head) = .ok head →
      (encodeLsbe1 E head tail).length < 2 ^ 64 →
      ensemblePayloadFromBytes E (encodeLsbe1 E head tail) contentType =
        .ok (.envelope head tail)) ∧
    (∀ blob : Bytes, blob.length < 2 ^ 64 → ∀ head tail,
      splitEnvelope E blob = .ok (head, tail) ↔
        IsContainer E blob head (tail.getD []) ∧ tail ≠ some []) ∧
    ∀ blob msg, splitEnvelope E blob ≠ .error (.panicked msg) := by
  refine ⟨fun head tail contentType hround hsize => ?_, fun blob hblob head tail =>
    splitEnvelope_eq_ok hblob, fun blob msg h => splitEnvelope_not_panicked blob _ h msg rfl⟩
  have hsplit := splitEnvelope_of_isContainer hsize (isContainer_encodeLsbe1 hround hsize)
  have hmagic : lsbMagic.isPrefixOf (encodeLsbe1 E head tail) = true := by
    rw [List.isPrefixOf_iff_prefix, encodeLsbe1, List.append_assoc, List.append_assoc]
    exact List.prefix_append _ _
  rw [ensemblePayloadFromBytes, if_pos hmagic, hsplit]
  cases tail with
  | nil => rfl
  | cons b tail => rfl

/-- An empty object with two bytes behind it. -/
theorem container_codec_small :
    ensemblePayloadFromBytes plainExternals
      (encodeLsbe1 plainExternals (.object []) [0, 1]) none =
        .ok (.envelope (.object []) [0, 1]) :=
  (container_codec plainExternals).1 (.object []) [0, 1] none rfl (by decide)

end Ensemble

end LiteServer
