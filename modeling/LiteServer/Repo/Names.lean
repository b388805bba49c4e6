import LiteServer.Lib.Separator
import LiteServer.Text
import Mathlib.Algebra.Order.Ring.Nat

/-!
# Model and version names

The validators of `validation.rs`, over names as lists of characters. `ModelName` and `VersionName`
are the names they accept, so that a name that was never validated cannot reach the file names and
socket names built from them.
-/

namespace LiteServer.Repo

/-- The longest name, in bytes. -/
def maxIdentifierLen : ℕ := 64

/-- The character class `[a-zA-Z0-9]`. -/
def isAlnum (c : Char) : Bool :=
  ('a' ≤ c && c ≤ 'z') || ('A' ≤ c && c ≤ 'Z') || ('0' ≤ c && c ≤ '9')

/-- The character class `[a-zA-Z0-9_-]`. -/
def isIdentifierChar (c : Char) : Bool := isAlnum c || c == '_' || c == '-'

/-- The character class `[a-zA-Z0-9._-]`. -/
def isVersionChar (c : Char) : Bool := isAlnum c || c == '.' || c == '_' || c == '-'

/-- `IDENTIFIER_RE`, `^[a-zA-Z0-9_-]+$`. -/
def identifierRe (s : Text) : Bool := !s.isEmpty && s.all isIdentifierChar

/-- `VERSION_RE`, `^[a-zA-Z0-9][a-zA-Z0-9._-]*$`. -/
def versionRe : Text → Bool
  | [] => false
  | c :: cs => isAlnum c && cs.all isVersionChar

/-- `validate_identifier`. -/
def validateIdentifier (s : Text) : Except String Unit :=
  if s.isEmpty then .error "identifier cannot be empty"
  else if byteLen s > maxIdentifierLen then
    .error "identifier exceeds maximum length of 64 characters"
  else if !identifierRe s then
    .error "identifier contains invalid characters; allowed: a-z, A-Z, 0-9, _, -"
  else .ok ()

/-- `validate_version`. -/
def validateVersion (s : Text) : Except String Unit :=
  if s.isEmpty then .error "version cannot be empty"
  else if byteLen s > maxIdentifierLen then
    .error "version exceeds maximum length of 64 characters"
  else if decide (['.', '.'] <:+: s) || s.head? == some '.' || s.getLast? == some '.' then
    .error "version contains invalid characters"
  else if !versionRe s then
    .error "version contains invalid characters; allowed: a-z, A-Z, 0-9, _, -, ."
  else .ok ()

instance decidableEqOk (e : Except String Unit) : Decidable (e = .ok ()) :=
  match e with
  | .ok () => isTrue rfl
  | .error _ => isFalse (by rintro ⟨⟩)

/-- A model name `validate_identifier` accepts. -/
structure ModelName where
  text : Text
  valid : validateIdentifier text = .ok ()
  deriving DecidableEq

/-- A version name `validate_version` accepts. -/
structure VersionName where
  text : Text
  valid : validateVersion text = .ok ()
  deriving DecidableEq

@[ext] theorem ModelName.ext {m m' : ModelName} (h : m.text = m'.text) : m = m' := by
  cases m
  cases h
  rfl

@[ext] theorem VersionName.ext {v v' : VersionName} (h : v.text = v'.text) : v = v' := by
  cases v
  cases h
  rfl

/-- A model name has no dot in front, so nothing that is hidden is a model. -/
theorem ModelName.dot_ne (m : ModelName) (x : Text) : '.' :: x ≠ m.text := by
  intro h
  have hvalid := m.valid
  rw [← h, validateIdentifier] at hvalid
  split at hvalid
  · cases hvalid
  · split at hvalid
    · cases hvalid
    · cases hvalid

end LiteServer.Repo
