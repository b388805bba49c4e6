import Mathlib.Algebra.Order.Ring.Nat
import Mathlib.Data.List.DropRight

/-!
# Texts

The functions of `str` that the modelled code calls, over texts as lists of characters.
-/

namespace LiteServer

/-- A text of the source, as its characters. -/
abbrev Text := List Char

scoped instance lawfulBEqText : LawfulBEq Text := inferInstance

/-- `str::len`: the number of bytes in UTF-8. -/
def byteLen (s : Text) : ℕ := (s.map Char.utf8Size).sum

/-- `str::strip_prefix`. -/
def stripPrefix (s start : Text) : Option Text :=
  if start <+: s then some (s.drop start.length) else none

/-- The characters with the property `White_Space`. -/
def isSpace (c : Char) : Bool :=
  (9 ≤ c.toNat && c.toNat ≤ 13) || (0x2000 ≤ c.toNat && c.toNat ≤ 0x200A) ||
    [0x20, 0x85, 0xA0, 0x1680, 0x2028, 0x2029, 0x202F, 0x205F, 0x3000].contains c.toNat

/-- `str::trim`. -/
def trim (text : Text) : Text := (text.dropWhile isSpace).rdropWhile isSpace

theorem stripPrefix_eq_some {s start rest : Text} :
    stripPrefix s start = some rest ↔ s = start ++ rest := by
  unfold stripPrefix
  constructor
  · intro h
    split at h
    · rename_i hpre
      obtain ⟨r, rfl⟩ := hpre
      rw [List.drop_left] at h
      rw [Option.some.inj h]
    · cases h
  · rintro rfl
    rw [if_pos ⟨rest, rfl⟩, List.drop_left]

/-! ### Trimming -/

/-- A visible ASCII character is no space. -/
theorem isSpace_of_code {c : Char} (hlow : 33 ≤ c.toNat) (hhigh : c.toNat ≤ 126) :
    isSpace c = false := by
  simp [isSpace]
  omega

variable {x y : Text}

theorem dropWhile_isSpace (h : ∀ c ∈ x, isSpace c = false) : x.dropWhile isSpace = x := by
  cases x with
  | nil => rfl
  | cons c x => rw [List.dropWhile_cons_of_neg (by simp [h c List.mem_cons_self])]

theorem trim_eq_self (h : ∀ c ∈ x, isSpace c = false) : trim x = x := by
  rw [trim, dropWhile_isSpace h, List.rdropWhile_eq_self_iff]
  intro hne
  simp [h _ (List.getLast_mem hne)]

/-- A text that ends in other characters is trimmed on its left only. -/
theorem trim_append (hy : ∀ c ∈ y, isSpace c = false) (hne : y ≠ []) :
    trim (x ++ y) = x.dropWhile isSpace ++ y := by
  have hleft : (x ++ y).dropWhile isSpace = x.dropWhile isSpace ++ y := by
    rw [List.dropWhile_append, dropWhile_isSpace hy]
    split
    · rename_i hempty
      rw [List.isEmpty_iff.mp hempty, List.nil_append]
    · rfl
  rw [trim, hleft, List.rdropWhile_eq_self_iff]
  intro _
  rw [List.getLast_append_of_right_ne_nil _ _ hne]
  simp [hy _ (List.getLast_mem hne)]

/-- A text that begins with other characters is trimmed on its right only. -/
theorem trim_append_left (hx : ∀ c ∈ x, isSpace c = false) (hne : x ≠ []) :
    trim (x ++ y) = x ++ y.rdropWhile isSpace := by
  have hleft : (x ++ y).dropWhile isSpace = x ++ y := by
    rw [List.dropWhile_append, dropWhile_isSpace hx]
    simp [hne]
  have hrev : x.reverse.dropWhile isSpace = x.reverse :=
    dropWhile_isSpace fun c hc => hx c (List.mem_reverse.mp hc)
  rw [trim, hleft, List.rdropWhile, List.rdropWhile, List.reverse_append, List.dropWhile_append,
    hrev]
  split
  · rename_i hempty
    rw [List.isEmpty_iff.mp hempty, List.reverse_nil, List.append_nil, List.reverse_reverse]
  · rw [List.reverse_append, List.reverse_reverse]

end LiteServer
