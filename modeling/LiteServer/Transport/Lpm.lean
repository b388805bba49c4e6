import LiteServer.Lib.LittleEndian
import LiteServer.Message

/-!
# The frames of the bidirectional HTTP/2 stream

A frame is a zero flag byte, the payload length in four bytes, most significant first, and the
payload, an encoded `BidiChunk`. The protobuf codec is a parameter: `encode` and `decode`, with
whatever error `decode` has.

`encode_frame` accepts every chunk, `try_decode_frame` does not accept every length: none of a
zero-length payload, none beyond `MAX_LPM_FRAME`; and the encoder writes only the low 32 bits of
the length. So a frame reads back exactly when its payload is neither empty nor too long.

The decoder looks at nothing but a prefix of the buffer, and once that prefix decides the answer,
more bytes do not change it. That is why the cutting of a byte stream into segments is not seen.
-/

namespace LiteServer

namespace Transport

variable {χ ε : Type*}

/-- `MAX_LPM_FRAME`: 16 MiB. -/
def maxLpmFrame : ℕ := 16 * 1024 * 1024

/-- `LpmError`. -/
inductive LpmError (ε : Type*) where
  | badFlag
  | tooLarge
  | truncated
  | emptyPayload
  | decode (error : ε)
  deriving DecidableEq, Repr

/-- `encode_frame`: the length is cast to `u32`. -/
def encodeFrame (encode : χ → Bytes) (chunk : χ) : Bytes :=
  let payload := encode chunk
  0 :: (toLE 4 (payload.length % 2 ^ 32)).reverse ++ payload

/-- `try_decode_frame`: the answer, and the buffer it leaves. -/
def tryDecodeFrame (decode : Bytes → Except ε χ) (buf : Bytes) :
    Except (LpmError ε) (Option χ) × Bytes :=
  match buf with
  | flag :: b₁ :: b₂ :: b₃ :: b₄ :: rest =>
    if flag ≠ 0 then (.error .badFlag, [])
    else
      let len := ofLE [b₄, b₃, b₂, b₁]
      if maxLpmFrame < len then (.error .tooLarge, [])
      else if len = 0 then (.error .emptyPayload, rest)
      else if rest.length < len then (.ok none, buf)
      else
        match decode (rest.take len) with
        | .ok chunk => (.ok (some chunk), rest.drop len)
        | .error e => (.error (.decode e), rest.drop len)
  -- fewer bytes than a header
  | _ => (.ok none, buf)

/-! ### The round trip -/

/-- **A frame reads back exactly when its payload is neither empty nor longer than 16 MiB.** With
a codec that round-trips, decoding an encoded chunk followed by any bytes gives the chunk and
leaves those bytes if and only if the encoding has between 1 and `MAX_LPM_FRAME` bytes. -/
theorem tryDecodeFrame_encodeFrame_iff (encode : χ → Bytes) (decode : Bytes → Except ε χ)
    (hcodec : ∀ c, decode (encode c) = .ok c) (c : χ) (rest : Bytes) :
    tryDecodeFrame decode (encodeFrame encode c ++ rest) = (.ok (some c), rest) ↔
      0 < (encode c).length ∧ (encode c).length ≤ maxLpmFrame := by
  have hlow : (encode c).length % 2 ^ 32 < 256 ^ 4 := Nat.mod_lt _ (by decide)
  have hread := ofLE_toLE hlow
  generalize hn : (encode c).length % 2 ^ 32 = n at hread hlow
  obtain ⟨b₄, b₃, b₂, b₁, hbytes⟩ : ∃ b₄ b₃ b₂ b₁, toLE 4 n = [b₄, b₃, b₂, b₁] :=
    ⟨_, _, _, _, rfl⟩
  rw [hbytes] at hread
  have hframe : encodeFrame encode c ++ rest = 0 :: b₁ :: b₂ :: b₃ :: b₄ :: (encode c ++ rest) := by
    simp only [encodeFrame, hn, hbytes]
    rfl
  have hmod : n ≤ (encode c).length := hn ▸ Nat.mod_le ..
  simp only [hframe, tryDecodeFrame, hread, ne_eq, not_true, if_false, List.length_append]
  constructor
  · intro h
    split at h
    · simp at h
    · split at h
      · simp at h
      · rename_i hmax hpos
        split at h
        · simp at h
        · -- the bytes left over are those after the length that was read
          have hleft : (encode c ++ rest).drop n = rest := by
            split at h
            · exact congrArg Prod.snd h
            · simp at h
          have hlen := congrArg List.length hleft
          simp only [List.length_drop, List.length_append] at hlen
          omega
  · rintro ⟨hpos, hmax⟩
    have hfit : n = (encode c).length := by
      rw [← hn]
      refine Nat.mod_eq_of_lt (lt_of_le_of_lt hmax ?_)
      decide
    rw [if_neg (by omega), if_neg (by omega), if_neg (by omega), hfit, List.take_left',
      List.drop_left' rfl, hcodec]
    rfl

/-- A chunk of one byte. -/
theorem tryDecodeFrame_encodeFrame_byte :
    tryDecodeFrame (fun b => (.ok b : Except Unit Bytes)) (encodeFrame id [7] ++ [1, 2]) =
      (.ok (some [7]), [1, 2]) :=
  (tryDecodeFrame_encodeFrame_iff id (fun b => (.ok b : Except Unit Bytes)) (fun _ => rfl) [7]
    [1, 2]).mpr (by decide)

/-- **The empty chunk does not read back.** The message with every field at its default has an
empty encoding, and its frame is refused. -/
theorem tryDecodeFrame_empty :
    tryDecodeFrame (fun b => (.ok b : Except Unit Bytes)) (encodeFrame id [] ++ [1, 2]) =
      (.error .emptyPayload, [1, 2]) := by
  rfl

/-! ### Segments -/

/-- What a buffer decides about itself with more bytes behind it: nothing yet, and then it is left
alone, or a chunk or an error, which stays the same. -/
theorem tryDecodeFrame_append (decode : Bytes → Except ε χ) (buf more : Bytes) :
    match tryDecodeFrame decode buf with
    | (.ok none, rest) => rest = buf
    | (.ok (some c), rest) => rest.length < buf.length ∧
        tryDecodeFrame decode (buf ++ more) = (.ok (some c), rest ++ more)
    | (.error e, _) => (tryDecodeFrame decode (buf ++ more)).1 = .error e := by
  match buf with
  | [] | [_] | [_, _] | [_, _, _] | [_, _, _, _] => rfl
  | flag :: b₁ :: b₂ :: b₃ :: b₄ :: rest =>
    simp only [tryDecodeFrame, List.cons_append]
    generalize ofLE [b₄, b₃, b₂, b₁] = len
    by_cases hflag : flag ≠ 0
    · simp only [if_pos hflag]
    by_cases hmax : maxLpmFrame < len
    · simp only [if_neg hflag, if_pos hmax]
    by_cases hzero : len = 0
    · simp only [if_neg hflag, if_neg hmax, if_pos hzero]
    by_cases hshort : rest.length < len
    · simp only [if_neg hflag, if_neg hmax, if_neg hzero, if_pos hshort]
    · have hlong : ¬ (rest ++ more).length < len := by
        rw [List.length_append]
        omega
      have htake : (rest ++ more).take len = rest.take len :=
        List.take_append_of_le_length (by omega)
      have hdrop : (rest ++ more).drop len = rest.drop len ++ more :=
        List.drop_append_of_le_length (by omega)
      simp only [if_neg hflag, if_neg hmax, if_neg hzero, if_neg hshort, if_neg hlong, htake, hdrop]
      cases decode (rest.take len) with
      | error e => rfl
      | ok c =>
        refine ⟨?_, rfl⟩
        simp only [List.length_drop, List.length_cons]
        omega

/-- What the reader of a stream has: the chunks so far, the first error, and the buffer. -/
structure Decoded (χ ε : Type*) where
  chunks : List χ
  error : Option (LpmError ε)
  rest : Bytes
  deriving DecidableEq, Repr

/-- Put chunks decoded earlier in front. -/
def Decoded.after (later : Decoded χ ε) (chunks : List χ) : Decoded χ ε :=
  { later with chunks := chunks ++ later.chunks }

/-- Go on with the buffer unless a frame was refused. -/
def Decoded.andThen (d : Decoded χ ε) (next : Bytes → Decoded χ ε) : Decoded χ ε :=
  match d.error with
  | some _ => d
  | none => (next d.rest).after d.chunks

/-- Decode until more bytes are needed or a frame is refused. -/
def drain (decode : Bytes → Except ε χ) (buf : Bytes) : Decoded χ ε :=
  match _h : tryDecodeFrame decode buf with
  | (.ok (some chunk), rest) => (drain decode rest).after [chunk]
  | (.ok none, rest) => ⟨[], none, rest⟩
  | (.error e, rest) => ⟨[], some e, rest⟩
termination_by buf.length
decreasing_by
  have happend := tryDecodeFrame_append decode buf []
  rw [_h] at happend
  exact happend.1

/-- Feed segments to the buffer one by one, draining it after each, until a frame is refused. -/
def feed (decode : Bytes → Except ε χ) (buf : Bytes) : List Bytes → Decoded χ ε
  | [] => ⟨[], none, buf⟩
  | segment :: segments => (drain decode (buf ++ segment)).andThen (feed decode · segments)

/-- The same chunks and the same error, and without an error the same bytes left. -/
structure Agree (d d' : Decoded χ ε) : Prop where
  chunks : d.chunks = d'.chunks
  error : d.error = d'.error
  rest : d.error = none → d.rest = d'.rest

theorem Agree.refl (d : Decoded χ ε) : Agree d d := ⟨rfl, rfl, fun _ => rfl⟩

theorem Agree.symm {d d' : Decoded χ ε} (h : Agree d d') : Agree d' d :=
  ⟨h.chunks.symm, h.error.symm, fun hnone => (h.rest (h.error.trans hnone)).symm⟩

theorem Agree.trans {d d' d'' : Decoded χ ε} (h : Agree d d') (h' : Agree d' d'') : Agree d d'' :=
  ⟨h.chunks.trans h'.chunks, h.error.trans h'.error,
    fun hnone => (h.rest hnone).trans (h'.rest (h.error ▸ hnone))⟩

theorem Agree.after {d d' : Decoded χ ε} (h : Agree d d') (chunks : List χ) :
    Agree (d.after chunks) (d'.after chunks) :=
  ⟨congrArg (chunks ++ ·) h.chunks, h.error, h.rest⟩

theorem andThen_after (d : Decoded χ ε) (chunks : List χ) (next : Bytes → Decoded χ ε) :
    (d.after chunks).andThen next = (d.andThen next).after chunks := by
  unfold Decoded.andThen
  simp only [Decoded.after]
  split <;> simp

theorem Agree.andThen {next next' : Bytes → Decoded χ ε} (d : Decoded χ ε)
    (h : d.error = none → Agree (next d.rest) (next' d.rest)) :
    Agree (d.andThen next) (d.andThen next') := by
  unfold Decoded.andThen
  split
  · exact .refl d
  · exact (h ‹_›).after d.chunks

section Drain

variable {decode : Bytes → Except ε χ} {buf rest : Bytes}

theorem drain_some {c : χ} (h : tryDecodeFrame decode buf = (.ok (some c), rest)) :
    drain decode buf = (drain decode rest).after [c] := by
  rw [drain]
  split <;> simp_all

theorem drain_none (h : tryDecodeFrame decode buf = (.ok none, rest)) :
    drain decode buf = ⟨[], none, buf⟩ := by
  have happend := tryDecodeFrame_append decode buf []
  rw [h] at happend
  rw [drain]
  split <;> simp_all

theorem drain_error {e : LpmError ε} (h : (tryDecodeFrame decode buf).1 = .error e) :
    (drain decode buf).chunks = [] ∧ (drain decode buf).error = some e := by
  rw [drain]
  split <;> simp_all

end Drain

/-- Draining early makes no difference, and leaves a buffer that needs more bytes. -/
theorem drain_append (decode : Bytes → Except ε χ) (buf more : Bytes) :
    Agree (drain decode (buf ++ more))
        ((drain decode buf).andThen fun rest => drain decode (rest ++ more)) ∧
      ((drain decode buf).error = none →
        ∃ rest, tryDecodeFrame decode (drain decode buf).rest = (.ok none, rest)) := by
  -- along the frames of the buffer: what they decide does not change
  induction hlen : buf.length using Nat.strongRecOn generalizing buf with
  | ind n ih =>
    have happend := tryDecodeFrame_append decode buf more
    match h : tryDecodeFrame decode buf with
    | (.ok (some c), rest) =>
      rw [h] at happend
      obtain ⟨hlt, hmore⟩ := happend
      obtain ⟨hagree, hsettled⟩ := ih rest.length (hlen ▸ hlt) rest rfl
      rw [drain_some h, drain_some hmore, andThen_after]
      exact ⟨hagree.after [c], hsettled⟩
    | (.ok none, rest) =>
      rw [drain_none h]
      exact ⟨.refl _, fun _ => ⟨rest, h⟩⟩
    | (.error e, rest) =>
      rw [h] at happend
      obtain ⟨hchunks, herror⟩ := drain_error (congrArg Prod.fst h)
      obtain ⟨hchunks', herror'⟩ := drain_error happend
      simp only [Decoded.andThen, herror]
      exact ⟨⟨hchunks'.trans hchunks.symm, herror'.trans herror.symm, by simp [herror']⟩, by simp⟩

/-- Feeding segments is draining their concatenation. -/
theorem feed_agree (decode : Bytes → Except ε χ) (segments : List Bytes) {buf rest : Bytes}
    (hbuf : tryDecodeFrame decode buf = (.ok none, rest)) :
    Agree (feed decode buf segments) (drain decode (buf ++ segments.flatten)) := by
  induction segments generalizing buf rest with
  | nil =>
    rw [List.flatten_nil, List.append_nil, drain_none hbuf]
    exact .refl _
  | cons segment segments ih =>
    obtain ⟨hdrain, hsettled⟩ := drain_append decode (buf ++ segment) segments.flatten
    rw [List.flatten_cons, ← List.append_assoc]
    refine Agree.trans (Agree.andThen _ fun hnone => ?_) hdrain.symm
    obtain ⟨rest', hrest'⟩ := hsettled hnone
    exact ih hrest'

/-- **The cutting of the stream is not seen.** Two ways of cutting the same bytes into segments
give the same chunks and the same first error, and the same bytes left over if there is none. A
call that needs more bytes leaves the buffer as it is. -/
theorem feed_segmentation (decode : Bytes → Except ε χ) (segments₁ segments₂ : List Bytes)
    (h : segments₁.flatten = segments₂.flatten) :
    Agree (feed decode [] segments₁) (feed decode [] segments₂) ∧
      ∀ buf rest, tryDecodeFrame decode buf = (.ok none, rest) → rest = buf := by
  refine ⟨?_, fun buf rest hnone => ?_⟩
  · have h₁ := feed_agree decode segments₁ (rfl : tryDecodeFrame decode [] = _)
    have h₂ := feed_agree decode segments₂ (rfl : tryDecodeFrame decode [] = _)
    rw [h] at h₁
    exact h₁.trans h₂.symm
  · have happend := tryDecodeFrame_append decode buf []
    rwa [hnone] at happend

/-- One frame, whole and byte by byte up to its payload. -/
theorem feed_segmentation_bytes :
    Agree (feed (fun b => (.ok b : Except Unit Bytes)) [] [[0, 0, 0, 0, 2, 8, 9]])
      (feed (fun b => .ok b) [] [[0], [0], [0], [0], [2], [8, 9]]) :=
  (feed_segmentation _ [[0, 0, 0, 0, 2, 8, 9]] [[0], [0], [0], [0], [2], [8, 9]] rfl).1

end Transport

end LiteServer
