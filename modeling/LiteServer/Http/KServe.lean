import LiteServer.Http.HalfFloat
import LiteServer.Json
import LiteServer.Lib.Checks
import LiteServer.Lib.LittleEndian

/-!
# The bytes of one element

`encode_value`: an element of the data of an output, as the bytes of its datatype.

Half and bfloat values go through single precision first, and `BF16` then picks the wrong bit to
round by. When the bytes are nevertheless the nearest ones is `emits_nearest_iff`.
-/

namespace LiteServer.KServe

open BinaryFloat Checks HalfFloat Rounding

/-! ### Elements -/

/-- The datatypes of a tensor. -/
inductive Datatype
  | bool
  | int (width : ℕ)
  | uint (width : ℕ)
  | fp16
  | fp32
  | fp64
  | bf16
  | bytes
  deriving DecidableEq

/-- The names of the datatypes. -/
def Datatype.ofStr : String → Option Datatype
  | "BOOL" => some .bool
  | "INT8" => some (.int 1)
  | "UINT8" => some (.uint 1)
  | "INT16" => some (.int 2)
  | "UINT16" => some (.uint 2)
  | "INT32" => some (.int 4)
  | "UINT32" => some (.uint 4)
  | "INT64" => some (.int 8)
  | "UINT64" => some (.uint 8)
  | "FP16" => some .fp16
  | "FP32" => some .fp32
  | "FP64" => some .fp64
  | "BF16" => some .bf16
  | "BYTES" => some .bytes
  | _ => none

/-- `Number::as_f64`: integers are rounded to the nearest double. -/
def asF64 : JsonNumber → UInt64
  | .posInt n => UInt64.ofNat (binary64.round (n.toNat * 2 ^ binary64.depth) 1)
  | .negInt n =>
    UInt64.ofNat (2 ^ 63 + binary64.round ((-n.toInt).toNat * 2 ^ binary64.depth) 1)
  | .float bits => bits

/-- `Value::as_i64`. -/
def asI64 : Json → Option ℤ
  | .number (.posInt n) => if n.toNat < 2 ^ 63 then some n.toNat else none
  | .number (.negInt n) => some n.toInt
  | _ => none

/-- A truth value or a number other than zero. -/
def boolish : Json → Bool
  | .bool b => b
  | .number n => binary64.magnitude (asF64 n).toNat ≠ 0
  | _ => false

/-- The number as `f64`. -/
def floatOf64 : Json → Except AppError UInt64
  | .number n => .ok (asF64 n)
  | _ => .error (.invalidRequestBody "binary_data_output: data element is not a JSON number")

/-- The number as `f32`. -/
def floatOf (v : Json) : Except AppError ℕ := toF32 <$> floatOf64 v

/-- `int_le`. -/
def intLe (width : ℕ) (v : Json) : Except AppError Bytes := do
  let i ← okOr (asI64 v)
    (.invalidRequestBody "binary_data_output: data element is not a JSON integer")
  let bits := width * 8
  rejectIf (width < 8 ∧ (i < -2 ^ (bits - 1) ∨ i > 2 ^ (bits - 1) - 1)) (.invalidRequestBody
    s!"binary_data_output: value {i} out of range for {bits}-bit signed integer")
  return (toLE 8 (i % 2 ^ 64).toNat).take width

/-- `uint_le`. -/
def uintLe (width : ℕ) (v : Json) : Except AppError Bytes := do
  let u ← okOr v.asU64
    (.invalidRequestBody "binary_data_output: data element is not a JSON unsigned integer")
  let bits := width * 8
  rejectIf (width < 8 ∧ u.toNat > 2 ^ bits - 1) (.invalidRequestBody
    s!"binary_data_output: value {u.toNat} out of range for {bits}-bit unsigned integer")
  return (toLE 8 u.toNat).take width

/-- `as_bytes`. -/
def asBytes (s : String) : Bytes := s.toUTF8.data.toList

/-- The bits of a half, unless the conversion overflows. -/
def f16Bits (single : ℕ) : Except AppError ℕ :=
  okOr (f64ToF16Bits (ofF32 single)) (.panicked "attempt to shift right with overflow")

/-- The bytes of one element. -/
def encodeValue (datatype : String) (v : Json) : Except AppError Bytes :=
  match Datatype.ofStr datatype with
  | some .bool => .ok [if boolish v then 1 else 0]
  | some (.int width) => intLe width v
  | some (.uint width) => uintLe width v
  | some .fp16 => do return toLE 2 (← f16Bits (← floatOf v))
  | some .fp32 => do return toLE 4 (← floatOf v)
  | some .fp64 => do return toLE 8 (← floatOf64 v).toNat
  | some .bf16 => do return toLE 2 (f64ToBf16Bits (ofF32 (← floatOf v)))
  | some .bytes => do
    let s ← okOr v.asStr (.invalidRequestBody
      "binary_data_output: BYTES data elements must be JSON strings")
    return toLE 4 (asBytes s).length ++ asBytes s
  | none => .error (.invalidRequestBody s!"binary_data_output: unknown datatype {datatype}")

/-! ### Half values -/

/-- The bytes of a number in a format of 16 bits are the nearest value. -/
def EmitsFor (datatype : String) (f : Format) (n : JsonNumber) : Prop :=
  ∃ bytes, encodeValue datatype (.number n) = .ok bytes ∧ bytes.length = 2 ∧
    EmitsNearest f (asF64 n) (ofLE bytes)

theorem emitsFor_iff {datatype : String} {f : Format} {n : JsonNumber} {bits : ℕ}
    (hbits : bits < 2 ^ 16) (h : encodeValue datatype (.number n) = .ok (toLE 2 bits)) :
    EmitsFor datatype f n ↔ EmitsNearest f (asF64 n) bits := by
  have hread : ofLE (toLE 2 bits) = bits := ofLE_toLE (by omega)
  constructor
  · rintro ⟨bytes, hbytes, -, hnear⟩
    rw [h, Except.ok.injEq] at hbytes
    rwa [← hbytes, hread] at hnear
  · intro hnear
    exact ⟨_, h, length_toLE 2 bits, hread.symm ▸ hnear⟩

theorem encodeValue_fp16 {n : JsonNumber} {bits : ℕ}
    (h : f64ToF16Bits (ofF32 (toF32 (asF64 n))) = some bits) :
    encodeValue "FP16" (.number n) = .ok (toLE 2 bits) := by
  have hbits : f16Bits (toF32 (asF64 n)) = .ok bits := by
    rw [f16Bits, h]
    rfl
  have hfloat : floatOf (.number n) = .ok (toF32 (asF64 n)) := rfl
  rw [encodeValue, show Datatype.ofStr "FP16" = some .fp16 by decide]
  exact bind_eq_ok.mpr ⟨_, hfloat, bind_eq_ok.mpr ⟨_, hbits, rfl⟩⟩

theorem encodeValue_bf16 (n : JsonNumber) :
    encodeValue "BF16" (.number n) = .ok (toLE 2 (f64ToBf16Bits (ofF32 (toF32 (asF64 n))))) := by
  have hfloat : floatOf (.number n) = .ok (toF32 (asF64 n)) := rfl
  rw [encodeValue, show Datatype.ofStr "BF16" = some .bf16 by decide]
  exact bind_eq_ok.mpr ⟨_, hfloat, rfl⟩

/-- **When half and bfloat outputs are the nearest values.** For every number whose double is
finite: the two bytes of `FP16` are the nearest half with ties to even if and only if rounding to
single precision before does no harm; those of `BF16` are the nearest bfloat16 if and only if the
value lies below the middle of its upper half when that is even, and above it when it is odd. -/
theorem emits_nearest_iff (n : JsonNumber) (h : IsFinite (asF64 n)) :
    (EmitsFor "FP16" half n ↔ SafeSingle (asF64 n)) ∧
      (EmitsFor "BF16" bfloat16 n ↔ SafeUpper (asF64 n)) := by
  constructor
  · obtain ⟨bits, hcode, hlt, hiff⟩ := f16_emitsNearest_iff h
    rw [emitsFor_iff hlt (encodeValue_fp16 hcode), hiff]
  · obtain ⟨hlt, hiff⟩ := bf16_emitsNearest_iff h
    rw [emitsFor_iff hlt (encodeValue_bf16 n), hiff]

/-- The double that is one. -/
def oneBits : UInt64 := 0x3FF0000000000000

/-- One is emitted as it is. -/
theorem emits_one :
    EmitsFor "FP16" half (.float oneBits) ∧ EmitsFor "BF16" bfloat16 (.float oneBits) := by
  have hfin : IsFinite (asF64 (.float oneBits)) := by
    change binary64.magnitude oneBits.toNat < binary64.inf
    decide
  have habs : absValue oneBits = 1 := by
    rw [absValue_of_binade (a := 2 ^ 52) (by decide) (by decide) (by decide)]
    norm_num
  have hsingle : single oneBits = 126 * 2 ^ 23 + 2 ^ 23 := by decide +kernel
  have hvalue : binary32.value (single oneBits) = 1 := by
    have hunits : units binary32.mant (126 * 2 ^ 23 + 2 ^ 23) = 2 ^ 23 * 2 ^ 126 :=
      units_place (m := 23) (by decide) (.inr le_rfl)
    rw [hsingle, Format.value, hunits, show binary32.depth = 23 + 126 by decide, pow_add]
    norm_num
  have hupper : upper oneBits = 0x3F80 := by
    rw [upper, hsingle]
    decide
  have hmid : absValue oneBits ≤ mid bfloat16.value (upper oneBits) := by
    rw [habs, ← hvalue, hsingle, show 126 * 2 ^ 23 + 2 ^ 23 = 0x3F80 * 2 ^ 16 by decide, hupper,
      mid_bfloat16]
    exact binary32.strictMono_value.monotone (by decide)
  obtain ⟨hhalf, hbfloat⟩ := emits_nearest_iff (.float oneBits) hfin
  refine ⟨hhalf.mpr (safeSingle_of_exact (habs.trans hvalue.symm)), hbfloat.mpr fun _ => ?_⟩
  refine ⟨fun _ => hmid, fun hodd => ?_⟩
  rw [show upper (asF64 (.float oneBits)) = 0x3F80 from hupper] at hodd
  exact absurd hodd (by decide)

/-- A value above the middle of two halves that is rounded down, to an even half, because it is
rounded to the middle first; and a value that is a bfloat16 and is emitted as the next one. -/
theorem emits_other :
    (encodeValue "FP16" (.number (.float 0x3FF0020000001000)) = .ok [0x00, 0x3C] ∧
        ¬ EmitsFor "FP16" half (.float 0x3FF0020000001000)) ∧
      (encodeValue "BF16" (.number (.float 0x3FF0200000000000)) = .ok [0x82, 0x3F] ∧
        ¬ EmitsFor "BF16" bfloat16 (.float 0x3FF0200000000000)) := by
  constructor
  · have hbits : f64ToF16Bits (ofF32 (toF32 (asF64 (.float 0x3FF0020000001000)))) =
        some 0x3C00 := by decide +kernel
    have hcode := encodeValue_fp16 hbits
    refine ⟨hcode, fun hemits => ?_⟩
    obtain ⟨-, hnear⟩ := (emitsFor_iff (by decide) hcode).mp hemits
    have habs : absValue (asF64 (.float 0x3FF0020000001000)) =
        ((2 ^ 52 + 2 ^ 41 + 2 ^ 12 : ℕ) : ℚ) / 2 ^ 52 :=
      absValue_of_binade (by decide) (by decide) (by decide)
    have hlow : half.value (half.magnitude 0x3C00) = 1 := by
      rw [Format.value, show units half.mant (half.magnitude 0x3C00) = 2 ^ 24 by decide,
        show half.depth = 24 by decide]
      norm_num
    have hhigh : half.value 0x3C01 = 1 + 1 / 2 ^ 10 := by
      rw [Format.value, show units half.mant 0x3C01 = 2 ^ 24 + 2 ^ 14 by decide,
        show half.depth = 24 by decide]
      norm_num
    obtain ⟨-, hle⟩ := hnear.low (by rw [mid_last_half, habs]; norm_num)
    have hother := (hle 0x3C01 (by decide)).1
    rw [hlow, hhigh, habs] at hother
    norm_num [abs_of_pos, abs_of_neg] at hother
  · have hbits : f64ToBf16Bits (ofF32 (toF32 (asF64 (.float 0x3FF0200000000000)))) = 0x3F82 := by
      decide +kernel
    have hcode := encodeValue_bf16 (.float 0x3FF0200000000000)
    rw [hbits] at hcode
    refine ⟨hcode, fun hemits => ?_⟩
    obtain ⟨-, hnear⟩ := (emitsFor_iff (by decide) hcode).mp hemits
    have habs : absValue (asF64 (.float 0x3FF0200000000000)) = bfloat16.value 0x3F81 := by
      rw [absValue_of_binade (a := 2 ^ 52 + 2 ^ 45) (by decide) (by decide) (by decide),
        Format.value, show units bfloat16.mant 0x3F81 = 129 * 2 ^ 126 by decide,
        show bfloat16.depth = 126 + 7 by decide, pow_add]
      norm_num
    have hmono := bfloat16.strictMono_value
    rw [habs] at hnear
    obtain ⟨-, hle⟩ := hnear.low ((lt_mid hmono 0x3F81).trans_le
      ((strictMono_mid hmono).monotone (by decide)))
    have hother := (hle 0x3F81 (by decide)).1
    rw [sub_self, abs_zero, abs_nonpos_iff, sub_eq_zero] at hother
    exact absurd (hmono.injective hother) (by decide)

end LiteServer.KServe
