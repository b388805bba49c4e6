import LiteServer.Lib.FirstBest
import LiteServer.Lib.IndexMap
import LiteServer.Lifecycle.Registry
import Mathlib.Data.List.Perm.Basic
import Mathlib.Data.String.Basic
import Mathlib.Order.WithBot

/-!
# The registry entry of a model

`ModelRegistry` at one model: its entry with the versions and the strategy, and its active
version. The two live in two maps, so a method that touches both is several functions here, one
for each access; the methods that are called without another call in between are their
compositions.

A version keeps its status, its weight and the time of its last use. The version map is a hash map,
and a walk over it may meet its entries in any order: the functions that walk take the entries in
the order they are met.

The semver crate is a parameter, `parse`, into what it compares versions by.
-/

namespace LiteServer

namespace Lifecycle

/-! ### Version names -/

section Names

variable {κ : Type*} [LinearOrder κ]

/-- `parse_lenient_semver`: without a leading `v`, and with the missing components. -/
def parseLenientSemver (parse : String → Option κ) (v : String) : Option κ :=
  let v := match v.toList with
    | 'v' :: cs => String.ofList cs
    | _ => v
  match parse v with
  | some sem => some sem
  | none =>
    match (v.toList.splitOn '.').length with
    | 1 => parse (v ++ ".0.0")
    | 2 => parse (v ++ ".0")
    | _ => none

/-- What versions are compared by where all of them parse. -/
def semverRank (parse : String → Option κ) (v : String) : WithBot κ := parseLenientSemver parse v

/-- Every candidate parses. -/
def allParse (parse : String → Option κ) (versions : List String) : Bool :=
  versions.all fun v => (parseLenientSemver parse v).isSome

/-- `pick_latest_version`. Of several greatest elements `max` and `max_by_key` return the last. -/
def pickLatestVersion (parse : String → Option κ) (versions : List String) : Option String :=
  if allParse parse versions then versions.reverse.argmax (semverRank parse)
  else versions.reverse.argmax id

end Names

/-! ### The entry -/

/-- `LoadPolicy`. -/
inductive LoadPolicy where
  | explicit | all | latest
  deriving DecidableEq, Repr

/-- What the registry keeps of a version here. -/
structure LoadedVersion where
  status : VersionStatus := .pending
  weight : ℕ := 0
  /-- `last_used_at`: a version that was never used comes before all others. -/
  lastUsed : WithBot ℕ := ⊥
  deriving DecidableEq

/-- `ModelEntry`. -/
structure ModelEntry where
  versions : IndexMap String LoadedVersion := .empty
  loadPolicy : LoadPolicy := .explicit
  maxLoadedVersions : Option ℕ := none
  weights : IndexMap String ℕ := .empty
  defaultVersion : Option String := none

/-- What the two maps of the registry hold for one model. -/
structure ModelSlot where
  entry : Option ModelEntry
  active : Option String

/-- The registered versions of the model. -/
def ModelSlot.versions (s : ModelSlot) : List String :=
  match s.entry with
  | none => []
  | some entry => entry.versions.keys

/-- `get`. -/
def ModelSlot.get (s : ModelSlot) (v : String) : Option LoadedVersion :=
  s.entry.bind fun entry => entry.versions.get? v

/-- The status of a version is serving. -/
def ModelSlot.serving (s : ModelSlot) (v : String) : Bool :=
  (s.get v).any fun mv => mv.status.isServing

/-- `active_version_is_ready`. -/
def ModelSlot.activeVersionIsReady (s : ModelSlot) : Bool := s.active.any s.serving

/-- `register`: refused if the version is there; the weight comes from the strategy. -/
def ModelSlot.register (s : ModelSlot) (v : String) : Except RegistryError ModelSlot :=
  let entry := s.entry.getD {}
  if v ∈ entry.versions.keys then .error .alreadyLoaded
  else
    let mv : LoadedVersion := { weight := (entry.weights.get? v).getD 0 }
    .ok { s with entry := some { entry with versions := entry.versions.insert v mv } }

/-- `set_status`. -/
def ModelSlot.setStatus (s : ModelSlot) (v : String) (status : VersionStatus) :
    Except RegistryError ModelSlot :=
  match s.entry with
  | none => .error .notFound
  | some entry =>
    match entry.versions.get? v with
    | none => .error .notFound
    | some mv =>
      let versions := entry.versions.insert v { mv with status }
      .ok { s with entry := some { entry with versions } }

/-- The check of `activate_version`: whether the pin will be set. -/
def ModelSlot.activateCheck (s : ModelSlot) (v : String) : Except RegistryError Bool :=
  match s.get v with
  | none => .error .notFound
  | some mv => .ok (mv.status = .ready)

/-- The insert of `activate_version`. -/
def ModelSlot.pin (s : ModelSlot) (v : String) : ModelSlot := { s with active := some v }

/-- `activate_version`. -/
def ModelSlot.activateVersion (s : ModelSlot) (v : String) :
    Except RegistryError (Bool × ModelSlot) :=
  match s.activateCheck v with
  | .error e => .error e
  | .ok false => .ok (false, s)
  | .ok true => .ok (true, s.pin v)

/-- Step 1 of `remove`: the version and its weight go; whether the model has to go too. -/
def ModelSlot.removeVersion (s : ModelSlot) (v : String) : Option (ModelSlot × Bool) :=
  s.entry.map fun entry =>
    let versions := entry.versions.erase v
    ({ s with entry := some { entry with versions, weights := entry.weights.erase v } },
      versions.isEmpty)

/-- The version that takes over from a removed active one: the default if it serves, else the
latest of the serving versions, met in the given order. -/
def ModelEntry.replacement {κ : Type*} [LinearOrder κ] (parse : String → Option κ)
    (entry : ModelEntry) (order : List (String × LoadedVersion)) : Option String :=
  let serving (v : String) : Bool := (entry.versions.get? v).any fun mv => mv.status.isServing
  (entry.defaultVersion.filter serving).or
    (pickLatestVersion parse ((order.filter fun e => e.2.status.isServing).map Prod.fst))

/-- Step 2 of `remove`: a pin on the removed version moves to the replacement. -/
def ModelSlot.cleanActive {κ : Type*} [LinearOrder κ] (parse : String → Option κ) (s : ModelSlot)
    (v : String) (order : List (String × LoadedVersion)) : ModelSlot :=
  if s.active = some v then
    { s with active := s.entry.bind fun entry => entry.replacement parse order }
  else s

/-- Step 3 of `remove`: the entry goes if no version was left in step 1. -/
def ModelSlot.dropEntry (s : ModelSlot) (shouldRemove : Bool) : ModelSlot :=
  if shouldRemove then { s with entry := none } else s

/-- The entries of the version map. -/
def ModelSlot.entries (s : ModelSlot) : List (String × LoadedVersion) :=
  match s.entry with
  | none => []
  | some entry => entry.versions.entries

/-- `remove`, with nothing in between. -/
def ModelSlot.remove {κ : Type*} [LinearOrder κ] (parse : String → Option κ)
    (iter : List (String × LoadedVersion) → List (String × LoadedVersion)) (s : ModelSlot)
    (v : String) : ModelSlot :=
  match s.removeVersion v with
  | none => s
  | some (s, shouldRemove) => (s.cleanActive parse v (iter s.entries)).dropEntry shouldRemove

/-- `lru_eviction_candidate`: the first of the least recently used versions but the active one. -/
def ModelSlot.lruEvictionCandidate (s : ModelSlot) (order : List (String × LoadedVersion)) :
    Option String :=
  ((order.filter fun e => s.active ≠ some e.1).argmin fun e => e.2.lastUsed).map Prod.fst

end Lifecycle

end LiteServer
