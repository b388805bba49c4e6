import LiteServer.Message
import LiteServer.Text

/-!
# Header maps

The headers of a request: names in lower case with values that are arbitrary bytes, in the order
they came. A value is read as text only when all of its bytes are visible ASCII; what such a reading
leaves out is the subject of the modules that use it.
-/

namespace LiteServer.Http

/-- Names with values, in order of appearance; a name may appear more than once. -/
abbrev HeaderMap := List (String × Bytes)

namespace HeaderMap

/-- `get_all`. -/
def getAll (headers : HeaderMap) (name : String) : List Bytes :=
  (headers.filter (·.1 = name)).map Prod.snd

/-- `get`: the first value. -/
def get (headers : HeaderMap) (name : String) : Option Bytes := (headers.getAll name).head?

end HeaderMap

/-- The bytes `HeaderValue::to_str` takes. -/
def isVisible (b : UInt8) : Bool := (32 ≤ b && b < 127) || b = 9

/-- The characters of the same code. -/
def latin1 (value : Bytes) : Text := value.map fun b => Char.ofNat b.toNat

/-- `HeaderValue::to_str`. -/
def toStr (value : Bytes) : Option Text := if value.all isVisible then some (latin1 value) else none

/-- The bytes of an ASCII text. -/
def asciiBytes (text : Text) : Bytes := text.map fun c => UInt8.ofNat c.toNat

/-- Visible ASCII characters other than the tab. -/
def isPrintable (c : Char) : Bool := decide (32 ≤ c.toNat) && decide (c.toNat < 127)

theorem toNat_ofNat_toNat {c : Char} (hc : isPrintable c = true) :
    (UInt8.ofNat c.toNat).toNat = c.toNat := by
  simp only [isPrintable, Bool.and_eq_true, decide_eq_true_eq] at hc
  exact UInt8.toNat_ofNat_of_lt' (Nat.lt_trans hc.2 (by decide))

/-- The codes of letters and digits. -/
theorem codes_of_isAlphanum {c : Char} (h : c.isAlphanum = true) :
    (65 ≤ c.toNat ∧ c.toNat ≤ 90) ∨ (97 ≤ c.toNat ∧ c.toNat ≤ 122) ∨
      (48 ≤ c.toNat ∧ c.toNat ≤ 57) := by
  change ((decide (c.val ≥ 'A'.val ∧ c.val ≤ 'Z'.val) ||
    decide (c.val ≥ 'a'.val) && decide (c.val ≤ 'z'.val)) ||
    decide (c.val ≥ '0'.val) && decide (c.val ≤ '9'.val)) = true at h
  simp only [Bool.or_eq_true, Bool.and_eq_true, decide_eq_true_eq] at h
  exact or_assoc.mp h

theorem code_of_isAlphanum {c : Char} (h : c.isAlphanum = true) :
    48 ≤ c.toNat ∧ c.toNat ≤ 122 := by
  have hcodes := codes_of_isAlphanum h
  omega

variable {text : Text}

theorem latin1_asciiBytes (h : ∀ c ∈ text, isPrintable c = true) :
    latin1 (asciiBytes text) = text := by
  rw [latin1, asciiBytes, List.map_map]
  refine (List.map_congr_left fun c hc => ?_).trans (List.map_id text)
  rw [Function.comp_apply, toNat_ofNat_toNat (h c hc), Char.ofNat_toNat, id_eq]

theorem isVisible_of_isPrintable {c : Char} (hc : isPrintable c = true) :
    isVisible (UInt8.ofNat c.toNat) = true := by
  have hnat := toNat_ofNat_toNat hc
  simp only [isPrintable, Bool.and_eq_true, decide_eq_true_eq] at hc
  simp only [isVisible, Bool.or_eq_true, Bool.and_eq_true, decide_eq_true_eq, UInt8.le_iff_toNat_le,
    UInt8.lt_iff_toNat_lt, hnat]
  exact .inl hc

theorem toStr_asciiBytes (h : ∀ c ∈ text, isPrintable c = true) :
    toStr (asciiBytes text) = some text := by
  have hall : (asciiBytes text).all isVisible = true := by
    rw [List.all_eq_true, asciiBytes]
    intro b hb
    obtain ⟨c, hc, rfl⟩ := List.mem_map.mp hb
    exact isVisible_of_isPrintable (h c hc)
  rw [toStr, if_pos hall, latin1_asciiBytes h]

/-- A value is a text exactly when both of its parts are. -/
theorem toStr_append (v w : Bytes) :
    toStr (v ++ w) = (toStr v).bind fun s => (toStr w).map (s ++ ·) := by
  simp only [toStr]
  by_cases hv : v.all isVisible <;> by_cases hw : w.all isVisible <;> simp [hv, latin1]

end LiteServer.Http
