import LiteServer.Lib.IndexMap
import Mathlib.Algebra.Order.Ring.Nat
import Mathlib.Data.Finmap
import Mathlib.Data.List.Sort
import Mathlib.Order.Bounds.Defs
import Mathlib.Order.WithBot

/-!
# The quick search of the profiler

`quick_search` climbs from the point without settings. It takes one knob after the other, measures
the values that the grid has for it with the other settings as they are, and moves to the best of
them if that improves on the current point; it ends with a pass over all knobs that did not move.
Measured points are cached, and the budget of measurements is looked at in each of the three loops.

The current point is the best that was measured, at every turn of the outer loops. So a point that
improves on it is a new one, and every pass but the last uses up some of the budget: this is why the
search ends (`Inv.climb`). A pass that did not move has seen all steps from its point, unless the
budget was at its end.

A step sets a knob to a value of the grid. The search begins with no knob set and takes no setting
back, so that a point which leaves out a knob of the best point need not be measured and may be
better.

## Main results

* `quickSearch_localOptimum` — the search ends within its budget at a point that is the best one
  measured and, if the budget was not used up, no worse than any step from it
* `unset_knob_better` — a search that ends with budget left, beside a better point with one knob
  less
-/

namespace LiteServer.Profile

variable {V α : Type*}

/-! ### Grids and trials -/

/-- `ConfigPoint`, a dictionary. Its values are told from each other by their JSON texts, as the
cache of the search does: `1` and `1.0` are two values. -/
@[ext]
structure ConfigPoint (V : Type*) where
  values : Finmap fun _ : String => V

instance decidableEqConfigPoint [DecidableEq V] : DecidableEq (ConfigPoint V) := fun _ _ =>
  decidable_of_iff _ ConfigPoint.ext_iff.symm

/-- `GridSpec`; of its fields the search reads the knobs. -/
structure GridSpec (V : Type*) where
  knobs : IndexMap String (List V)

/-- `_RELOAD_COST_ORDER`. -/
def reloadCostOrder : List String := ["workers_per_device", "max_batch_size", "batch_timeout"]

/-- The order in which `config_points` takes the knobs. -/
def costLe (key key' : String) : Prop :=
  reloadCostOrder.idxOf key < reloadCostOrder.idxOf key' ∨
    reloadCostOrder.idxOf key = reloadCostOrder.idxOf key' ∧ key ≤ key'

instance decidableRelCostLe : DecidableRel costLe := fun _ _ =>
  inferInstanceAs (Decidable (_ ∨ _ ∧ _))

/-- `itertools.product`. -/
def product : List (List V) → List (List V)
  | [] => [[]]
  | values :: rest => values.flatMap fun value => (product rest).map (value :: ·)

/-- The values of a knob. -/
def GridSpec.ladder (grid : GridSpec V) (key : String) : List V := (grid.knobs.get? key).getD []

/-- All points of the grid. -/
def GridSpec.configPoints (grid : GridSpec V) : List (ConfigPoint V) :=
  -- without knobs the product has one element, which is the point without settings
  let keys := grid.knobs.keys.insertionSort costLe
  (product (keys.map grid.ladder)).map fun combo =>
    ⟨(keys.zip combo).foldl (fun values entry => values.insert entry.1 entry.2) ∅⟩

/-- How a trial ended. -/
inductive TrialStatus
  | ok
  | failed
  deriving DecidableEq

/-- The metrics that an objective reads. -/
structure Metrics (α : Type*) where
  throughput : Option α
  sessionsPerSec : Option α
  attainment : Option α

/-- A trial and what it measured. -/
structure TrialRecord (α : Type*) where
  index : ℤ
  status : TrialStatus
  metrics : Option (Metrics α)

/-- What the search maximizes. -/
inductive Objective
  | throughput
  | sessionsPerSec
  | goodput
  /-- A name that is not known. -/
  | other

section

variable [LinearOrder α] [Mul α] [Zero α]

/-- `objective_value`. -/
def objectiveValue (trial : TrialRecord α) : Objective → Option α
  | .throughput => trial.metrics.bind (·.throughput)
  | .sessionsPerSec => trial.metrics.bind (·.sessionsPerSec)
  | .goodput => trial.metrics.bind fun m =>
    m.attainment.map (· * m.throughput.getD 0)
  | .other => none

/-- `_point_value`: the best of the trials at the levels of concurrency. -/
def pointValue (trials : List (TrialRecord α)) (objective : Objective) : Option α :=
  ((trials.filter (·.status = .ok)).filterMap (objectiveValue · objective)).max?

end

/-! ### The search -/

/-- The result of a search. -/
structure QuickResult (V α : Type*) where
  pointsMeasured : List (ConfigPoint V) := []
  trials : List (TrialRecord α) := []
  best : Option (ConfigPoint V) := none
  bestValue : Option α := none
  totalPoints : ℕ := 0

/-- The arguments of `quick_search`. -/
structure QuickSearch (V α : Type*) where
  measurePoint : ConfigPoint V → List (TrialRecord α)
  grid : GridSpec V
  objective : Objective
  maxTrials : ℤ := 40

/-- The variables of `quick_search`. -/
structure SearchState (V α : Type*) where
  result : QuickResult V α
  /-- The key is the JSON text of the values, its members sorted, which says what they are. -/
  measuredValues : IndexMap (Finmap fun _ : String => V) (Option α) := .empty
  current : ConfigPoint V := ⟨∅⟩
  currentValue : Option α := none

/-- `dict(values)` with one setting replaced. -/
def ConfigPoint.set (p : ConfigPoint V) (key : String) (value : V) : ConfigPoint V :=
  ⟨p.values.insert key value⟩

/-- `new is not None and (old is None or new > old)`. -/
def improves [LinearOrder α] (old : Option α) : Option α → Bool
  | none => false
  | some new => old.all (· < new)

namespace QuickSearch

variable [DecidableEq V] [LinearOrder α] [Mul α] [Zero α] (q : QuickSearch V α)

/-- The value of a point, measured once. -/
def measure (s : SearchState V α) (point : ConfigPoint V) : Option α × SearchState V α :=
  match s.measuredValues.get? point.values with
  | some value => (value, s)
  | none =>
    let trials := q.measurePoint point
    let value := pointValue trials q.objective
    (value, { s with
      result := { s.result with
        trials := s.result.trials ++ trials
        pointsMeasured := s.result.pointsMeasured ++ [point] }
      measuredValues := s.measuredValues.insert point.values value })

/-- `len(result.points_measured) >= max_trials`. -/
def spent (s : SearchState V α) : Bool := q.maxTrials ≤ s.result.pointsMeasured.length

/-- The loop over the values of a knob, with `best_candidate` and its value. -/
def tryValues (key : String) : List V → SearchState V α → Option (ConfigPoint V) → Option α →
    SearchState V α × Option (ConfigPoint V) × Option α
  | [], s, best, bestValue => (s, best, bestValue)
  | value :: values, s, best, bestValue =>
    if q.spent s then (s, best, bestValue)
    else
      let candidate := s.current.set key value
      let measured := q.measure s candidate
      if improves bestValue measured.1 then
        tryValues key values measured.2 (some candidate) measured.1
      else tryValues key values measured.2 best bestValue

/-- What is done for one knob, and whether the search has moved. -/
def tryKey (s : SearchState V α) (key : String) : SearchState V α × Bool :=
  match q.tryValues key (q.grid.ladder key) s none s.currentValue with
  | (s, none, _) => (s, false)
  | (s, some candidate, value) =>
    -- there is a value where it is compared
    if s.currentValue.all fun old => value.any (old < ·) then
      ({ s with
        current := candidate
        currentValue := value
        result := { s.result with best := some candidate, bestValue := value } }, true)
    else (s, false)

/-- The loop over the knobs. -/
def pass : List String → SearchState V α → Bool → SearchState V α × Bool
  | [], s, improved => (s, improved)
  | key :: keys, s, improved =>
    if q.spent s then (s, improved)
    else
      let next := q.tryKey s key
      pass keys next.1 (improved || next.2)

/-- The knobs in the order of their names. -/
def keys : List String := q.grid.knobs.keys.insertionSort (· ≤ ·)

/-- The `while` loop, for so many turns at most. -/
def climb : ℕ → SearchState V α → Option (SearchState V α)
  | 0, _ => none
  | fuel + 1, s =>
    if q.spent s then some s
    else
      let next := q.pass q.keys s false
      if next.2 then climb fuel next.1 else some next.1

/-- The state at the head of the `while` loop. -/
def start : SearchState V α :=
  let baseline : ConfigPoint V := ⟨∅⟩
  let measured := q.measure { result := { totalPoints := q.grid.configPoints.length } } baseline
  { measured.2 with
    current := baseline
    currentValue := measured.1
    result := { measured.2.result with best := some baseline, bestValue := measured.1 } }

/-- `quick_search`. -/
def quickSearch (fuel : ℕ) : Option (QuickResult V α) :=
  (q.climb fuel q.start).map fun s =>
    { s.result with trials := s.result.trials.insertionSort (·.index ≤ ·.index) }

/-! ### What the search is for -/

/-- The value of a point. -/
def value (point : ConfigPoint V) : Option α := pointValue (q.measurePoint point) q.objective

end QuickSearch

/-- Every setting of the point is one of the grid. -/
def GridSpec.Has (grid : GridSpec V) (p : ConfigPoint V) : Prop :=
  ∀ key value, p.values.lookup key = some value → value ∈ grid.ladder key

/-- The points differ in one knob of the grid. -/
def GridSpec.Differ (grid : GridSpec V) (p p' : ConfigPoint V) : Prop :=
  ∃ key ∈ grid.knobs.keys, p'.values.lookup key ≠ p.values.lookup key ∧
    ∀ other, other ≠ key → p'.values.lookup other = p.values.lookup other

/-- The points differ in one knob, which the second one sets to a value of the grid. -/
def GridSpec.Step (grid : GridSpec V) (p p' : ConfigPoint V) : Prop :=
  ∃ key, ∃ value ∈ grid.ladder key, p'.values.lookup key = some value ∧
    ∀ other, other ≠ key → p'.values.lookup other = p.values.lookup other

/-- A local optimum within the budget. -/
structure LocalOptimum [LinearOrder α] [Mul α] [Zero α] (q : QuickSearch V α)
    (result : QuickResult V α) : Prop where
  budget : (result.pointsMeasured.length : ℤ) ≤ max 1 q.maxTrials
  nodup : result.pointsMeasured.Nodup
  /-- The best value is the largest one, and missing only if all are. -/
  largest : ∀ w, result.bestValue = some w →
    IsGreatest {v | ∃ p ∈ result.pointsMeasured, q.value p = some v} w
  missing : result.bestValue = none → ∀ p ∈ result.pointsMeasured, q.value p = none
  attained : ∃ best ∈ result.pointsMeasured,
    result.best = some best ∧ q.value best = result.bestValue
  /-- With budget left, no step from the best point leads to a larger value. -/
  single : result.pointsMeasured.length < q.maxTrials → ∀ best, result.best = some best →
    ∀ p, q.grid.Step best p → ∀ v, q.value p = some v → ∃ w, result.bestValue = some w ∧ v ≤ w

/-! ### Values that may be missing -/

section

/-- A missing value is below all others. -/
def score : Option α → WithBot α
  | none => ⊥
  | some v => v

@[simp] theorem score_none : score (none : Option α) = ⊥ := rfl

@[simp] theorem score_some (v : α) : score (some v) = v := rfl

variable [LinearOrder α] {x y old new : Option α}

theorem improves_iff : improves old new = true ↔ score old < score new := by
  cases new with
  | none => simp [improves]
  | some new => cases old <;> simp [improves]

theorem score_le_iff : score x ≤ score y ↔ ∀ v, x = some v → ∃ w, y = some w ∧ v ≤ w := by
  cases x with
  | none => simp
  | some v => cases y <;> simp

end

/-! ### Measured points -/

/-- The points that were measured. -/
def SearchState.points (s : SearchState V α) : List (ConfigPoint V) := s.result.pointsMeasured

namespace QuickSearch

variable {q : QuickSearch V α} {s s' s'' : SearchState V α} {p : ConfigPoint V}

theorem spent_eq_false : q.spent s = false ↔ (s.points.length : ℤ) < q.maxTrials := by
  simp [spent, SearchState.points]

theorem spent_eq_false_of_grown (hpoints : s.points <+: s'.points) (h : q.spent s' = false) :
    q.spent s = false := by
  have hlength := hpoints.length_le
  rw [spent_eq_false] at h ⊢
  omega

/-- All steps from a point with one of the knobs were measured. -/
def Seen (q : QuickSearch V α) (ks : List String) (p : ConfigPoint V) (s : SearchState V α) :
    Prop :=
  ∀ key ∈ ks, ∀ v ∈ q.grid.ladder key, p.set key v ∈ s.points

theorem Seen.mem_points (h : q.Seen q.keys p s) {p' : ConfigPoint V} (hstep : q.grid.Step p p') :
    p' ∈ s.points := by
  obtain ⟨key, v, hv, hkey, hother⟩ := hstep
  have hmem : key ∈ q.keys := by
    rw [keys, List.mem_insertionSort]
    by_contra hnot
    rw [GridSpec.ladder, IndexMap.get?_eq_none_iff.mpr hnot] at hv
    cases hv
  have hlookup : ∀ other, p'.values.lookup other = (p.set key v).values.lookup other := by
    intro other
    by_cases hsame : other = key
    · rw [hsame, hkey]
      exact (Finmap.lookup_insert p.values).symm
    · rw [hother other hsame]
      exact (Finmap.lookup_insert_of_ne p.values hsame).symm
  rw [ConfigPoint.ext (Finmap.ext_lookup hlookup)]
  exact h key hmem v hv

/-! ### One measurement -/

variable [DecidableEq V] [LinearOrder α] [Mul α] [Zero α]

/-- The cache has the points that were measured, with their values. -/
structure Memo (q : QuickSearch V α) (s : SearchState V α) : Prop where
  nodup : s.points.Nodup
  cached : ∀ p : ConfigPoint V,
    s.measuredValues.get? p.values = if p ∈ s.points then some (q.value p) else none

theorem Memo.measure_of_mem (h : q.Memo s) (hp : p ∈ s.points) :
    q.measure s p = (q.value p, s) := by
  rw [measure, h.cached, if_pos hp]

theorem Memo.measure_of_not_mem (h : q.Memo s) (hp : p ∉ s.points) :
    q.measure s p = (q.value p, { s with
      result := { s.result with
        trials := s.result.trials ++ q.measurePoint p
        pointsMeasured := s.result.pointsMeasured ++ [p] }
      measuredValues := s.measuredValues.insert p.values (q.value p) }) := by
  rw [measure, h.cached, if_neg hp]
  rfl

/-- Some points were measured, and the search has not moved. -/
structure Grown (q : QuickSearch V α) (s s' : SearchState V α) : Prop where
  memo : q.Memo s'
  points : s.points <+: s'.points
  budget : (s'.points.length : ℤ) ≤ max (s.points.length : ℤ) q.maxTrials
  current : s'.current = s.current
  currentValue : s'.currentValue = s.currentValue
  best : s'.result.best = s.result.best
  bestValue : s'.result.bestValue = s.result.bestValue

theorem Memo.grown (h : q.Memo s) : q.Grown s s :=
  ⟨h, List.prefix_refl _, le_max_left _ _, rfl, rfl, rfl, rfl⟩

theorem Grown.trans (h : q.Grown s s') (h' : q.Grown s' s'') : q.Grown s s'' where
  memo := h'.memo
  points := h.points.trans h'.points
  budget := h'.budget.trans (max_le h.budget (le_max_right _ _))
  current := h'.current.trans h.current
  currentValue := h'.currentValue.trans h.currentValue
  best := h'.best.trans h.best
  bestValue := h'.bestValue.trans h.bestValue

theorem Memo.insert (h : q.Memo s) (hp : p ∉ s.points)
    (hpoints : s'.points = s.points ++ [p])
    (hvalues : s'.measuredValues = s.measuredValues.insert p.values (q.value p)) : q.Memo s' where
  nodup := by
    rw [hpoints, List.nodup_append_comm]
    exact List.nodup_cons.mpr ⟨hp, h.nodup⟩
  cached p' := by
    rw [hvalues, IndexMap.get?_insert, h.cached, hpoints]
    by_cases hsame : p' = p
    · simp [hsame]
    · have hvalues : p'.values ≠ p.values := fun heq => hsame (ConfigPoint.ext heq)
      simp [hsame, hvalues]

/-- **A measurement** gives the value of its point, which is then a measured one. -/
theorem Memo.measure (h : q.Memo s) (hspent : q.spent s = false) (p : ConfigPoint V) :
    (q.measure s p).1 = q.value p ∧ q.Grown s (q.measure s p).2 ∧
      p ∈ (q.measure s p).2.points ∧
      ∀ p' ∈ (q.measure s p).2.points, p' ∈ s.points ∨ p' = p := by
  by_cases hp : p ∈ s.points
  · rw [h.measure_of_mem hp]
    exact ⟨rfl, h.grown, hp, fun p' hp' => .inl hp'⟩
  · rw [h.measure_of_not_mem hp]
    refine ⟨rfl, ⟨h.insert hp rfl rfl, List.prefix_append _ _, ?_, rfl, rfl, rfl, rfl⟩, ?_, ?_⟩
    · have hlt := spent_eq_false.mp hspent
      simp only [SearchState.points, List.length_append, List.length_singleton] at hlt ⊢
      omega
    · exact List.mem_append_right _ (List.mem_singleton_self p)
    · intro p' hp'
      exact (List.mem_append.mp hp').imp_right List.mem_singleton.mp

/-! ### The values of a knob -/

/-- The loop over the values of a knob: the candidate is the best point so far, if there is one
above the current point. -/
structure Scan (q : QuickSearch V α) (s : SearchState V α) (best : Option (ConfigPoint V))
    (bestValue : Option α) : Prop where
  memo : q.Memo s
  top : ∀ p ∈ s.points, score (q.value p) ≤ score bestValue
  unchanged : best = none → bestValue = s.currentValue
  chosen : ∀ c, best = some c →
    c ∈ s.points ∧ q.value c = bestValue ∧ score s.currentValue < score bestValue

variable {best : Option (ConfigPoint V)} {bestValue : Option α}

theorem Scan.le (h : q.Scan s best bestValue) : score s.currentValue ≤ score bestValue := by
  cases hbest : best with
  | none => rw [h.unchanged hbest]
  | some c => exact (h.chosen c hbest).2.2.le

theorem Scan.keep (h : q.Scan s best bestValue) (hgrown : q.Grown s s')
    (hnew : ∀ p' ∈ s'.points, p' ∈ s.points ∨ p' = p) (hle : score (q.value p) ≤ score bestValue) :
    q.Scan s' best bestValue where
  memo := hgrown.memo
  top p' hp' := by
    rcases hnew p' hp' with hold | rfl
    · exact h.top p' hold
    · exact hle
  unchanged hnone := (h.unchanged hnone).trans hgrown.currentValue.symm
  chosen c hc := by
    obtain ⟨hmem, hvalue, hlt⟩ := h.chosen c hc
    exact ⟨hgrown.points.subset hmem, hvalue, hgrown.currentValue ▸ hlt⟩

theorem Scan.replace (h : q.Scan s best bestValue) (hgrown : q.Grown s s') (hp : p ∈ s'.points)
    (hnew : ∀ p' ∈ s'.points, p' ∈ s.points ∨ p' = p) (hlt : score bestValue < score (q.value p)) :
    q.Scan s' (some p) (q.value p) where
  memo := hgrown.memo
  top p' hp' := by
    rcases hnew p' hp' with hold | rfl
    · exact (h.top p' hold).trans hlt.le
    · exact le_rfl
  unchanged hnone := by cases hnone
  chosen c hc := by
    cases hc
    exact ⟨hp, rfl, hgrown.currentValue ▸ h.le.trans_lt hlt⟩

/-- What comes of the loop: if it was not cut off, all values were measured. -/
structure Scanned (q : QuickSearch V α) (key : String) (values : List V) (s s' : SearchState V α)
    (best : Option (ConfigPoint V)) (bestValue : Option α) : Prop where
  grown : q.Grown s s'
  scan : q.Scan s' best bestValue
  all : q.spent s' = false → ∀ v ∈ values, s.current.set key v ∈ s'.points

variable {key : String} {value : V} {values : List V}

theorem Scanned.cons (h : q.Scanned key values s' s'' best bestValue) (hgrown : q.Grown s s')
    (hmem : s.current.set key value ∈ s'.points) :
    q.Scanned key (value :: values) s s'' best bestValue where
  grown := hgrown.trans h.grown
  scan := h.scan
  all hleft := by
    have hall := h.all hleft
    rw [hgrown.current] at hall
    exact List.forall_mem_cons.mpr ⟨h.grown.points.subset hmem, hall⟩

/-- **The loop over the values of a knob.** -/
theorem Scan.tryValues (key : String) (values : List V) :
    ∀ {s : SearchState V α} {best : Option (ConfigPoint V)} {bestValue : Option α},
      q.Scan s best bestValue → ∃ s' best' bestValue',
        q.tryValues key values s best bestValue = (s', best', bestValue') ∧
        q.Scanned key values s s' best' bestValue' := by
  induction values with
  | nil =>
    intro s best bestValue h
    exact ⟨s, best, bestValue, rfl, h.memo.grown, h, fun _ v hv => by cases hv⟩
  | cons value values ih =>
    intro s best bestValue h
    rw [QuickSearch.tryValues]
    split
    · rename_i hspent
      exact ⟨s, best, bestValue, rfl, h.memo.grown, h,
        fun hfalse => absurd (hspent.symm.trans hfalse) (by decide)⟩
    · rename_i hspent
      obtain ⟨hvalue, hgrown, hmem, hnew⟩ :=
        h.memo.measure (Bool.not_eq_true _ ▸ hspent) (s.current.set key value)
      simp only [hvalue]
      split
      · rename_i himproves
        obtain ⟨s', best', bestValue', heq, hrest⟩ :=
          ih (h.replace hgrown hmem hnew (improves_iff.mp himproves))
        exact ⟨s', best', bestValue', heq, hrest.cons hgrown hmem⟩
      · rename_i hnot
        obtain ⟨s', best', bestValue', heq, hrest⟩ :=
          ih (h.keep hgrown hnew (not_lt.mp (mt improves_iff.mpr hnot)))
        exact ⟨s', best', bestValue', heq, hrest.cons hgrown hmem⟩

/-! ### Passes over the knobs -/

/-- What holds whenever a knob is taken up: the search is at the best point that was measured. -/
structure Inv (q : QuickSearch V α) (s : SearchState V α) : Prop where
  memo : q.Memo s
  budget : (s.points.length : ℤ) ≤ max 1 q.maxTrials
  mem : s.current ∈ s.points
  value : q.value s.current = s.currentValue
  top : ∀ p ∈ s.points, score (q.value p) ≤ score s.currentValue
  best : s.result.best = some s.current
  bestValue : s.result.bestValue = s.currentValue

/-- What comes of some knobs: new points if the search has moved, and all steps if it has not and
there is budget left. -/
structure Advance (q : QuickSearch V α) (ks : List String) (s s' : SearchState V α)
    (moved : Bool) : Prop where
  inv : q.Inv s'
  points : s.points <+: s'.points
  grew : moved = true → s.points.length < s'.points.length
  stayed : moved = false → s'.current = s.current ∧ (q.spent s' = false → q.Seen ks s.current s')

theorem Inv.stay {ks : List String} (h : q.Inv s') (hpoints : s.points <+: s'.points)
    (hcurrent : s'.current = s.current)
    (hseen : q.spent s' = false → q.Seen ks s.current s') : q.Advance ks s s' false where
  inv := h
  points := hpoints
  grew hmoved := by cases hmoved
  stayed _ := ⟨hcurrent, hseen⟩

theorem Inv.scan (h : q.Inv s) : q.Scan s none s.currentValue :=
  ⟨h.memo, h.top, fun _ => rfl, fun c hc => by cases hc⟩

theorem Inv.grown (h : q.Inv s) (hgrown : q.Grown s s')
    (htop : ∀ p ∈ s'.points, score (q.value p) ≤ score s.currentValue) : q.Inv s' where
  memo := hgrown.memo
  budget := hgrown.budget.trans (max_le h.budget (le_max_right _ _))
  mem := hgrown.current ▸ hgrown.points.subset h.mem
  value := by rw [hgrown.current, hgrown.currentValue, h.value]
  top := hgrown.currentValue ▸ htop
  best := by rw [hgrown.best, hgrown.current, h.best]
  bestValue := by rw [hgrown.bestValue, hgrown.currentValue, h.bestValue]

/-- A point above all that were measured is a new one. -/
theorem Inv.length_lt (h : q.Inv s) (hpoints : s.points <+: s'.points) (hp : p ∈ s'.points)
    (hlt : score s.currentValue < score (q.value p)) : s.points.length < s'.points.length := by
  refine lt_of_le_of_ne hpoints.length_le fun hlength => ?_
  have heq : s.points = s'.points := hpoints.eq_of_length hlength
  exact absurd (h.top p (heq ▸ hp)) (not_le.mpr hlt)

/-- **One knob.** -/
theorem Inv.tryKey (h : q.Inv s) (key : String) :
    q.Advance [key] s (q.tryKey s key).1 (q.tryKey s key).2 := by
  obtain ⟨s', best, bestValue, heq, ⟨hgrown, hscan, hall⟩⟩ :=
    h.scan.tryValues key (q.grid.ladder key)
  rw [QuickSearch.tryKey, heq]
  cases best with
  | none =>
    have hsame : bestValue = s.currentValue :=
      (hscan.unchanged rfl).trans hgrown.currentValue
    exact (h.grown hgrown (hsame ▸ hscan.top)).stay hgrown.points hgrown.current
      fun hleft => List.forall_mem_singleton.mpr (hall hleft)
  | some candidate =>
    obtain ⟨hmem, hvalue, hlt⟩ := hscan.chosen candidate rfl
    have hcompare : (s'.currentValue.all fun old => bestValue.any (old < ·)) = true := by
      cases hold : s'.currentValue with
      | none => rfl
      | some old =>
        cases hnew : bestValue with
        | none => simp [hold, hnew] at hlt
        | some new => simpa [hold, hnew] using hlt
    simp only [hcompare, if_true]
    refine ⟨⟨⟨hgrown.memo.nodup, hgrown.memo.cached⟩, ?_, hmem, hvalue, hscan.top, rfl, rfl⟩,
      hgrown.points, fun _ => ?_, fun hmoved => by cases hmoved⟩
    · exact hgrown.budget.trans (max_le h.budget (le_max_right _ _))
    · rw [hgrown.currentValue, ← hvalue] at hlt
      exact h.length_lt hgrown.points hmem hlt

variable {ks ks' : List String} {moved moved' : Bool}

theorem Advance.trans (h : q.Advance ks s s' moved) (h' : q.Advance ks' s' s'' moved') :
    q.Advance (ks ++ ks') s s'' (moved || moved') where
  inv := h'.inv
  points := h.points.trans h'.points
  grew hmoved := by
    have hlength := h.points.length_le
    have hlength' := h'.points.length_le
    rcases Bool.or_eq_true_iff.mp hmoved with hmoved | hmoved
    · exact (h.grew hmoved).trans_le hlength'
    · exact hlength.trans_lt (h'.grew hmoved)
  stayed hstayed := by
    obtain ⟨hfalse, hfalse'⟩ := Bool.or_eq_false_iff.mp hstayed
    obtain ⟨hcurrent, hseen⟩ := h.stayed hfalse
    obtain ⟨hcurrent', hseen'⟩ := h'.stayed hfalse'
    refine ⟨hcurrent'.trans hcurrent, fun hleft => List.forall_mem_append.mpr ⟨?_, ?_⟩⟩
    · intro key hkey v hv
      have hearlier := hseen (spent_eq_false_of_grown h'.points hleft)
      exact h'.points.subset (hearlier key hkey v hv)
    · exact hcurrent ▸ hseen' hleft

theorem pass_improved (ks : List String) (improved : Bool) :
    ∀ s : SearchState V α, q.pass ks s improved =
      ((q.pass ks s false).1, improved || (q.pass ks s false).2) := by
  induction ks generalizing improved with
  | nil =>
    intro s
    simp [pass]
  | cons key ks ih =>
    intro s
    rw [pass, pass]
    split
    · simp
    · rw [ih (improved || (q.tryKey s key).2), ih (false || (q.tryKey s key).2), Bool.false_or,
        Bool.or_assoc]

/-- **A pass over the knobs.** -/
theorem Inv.pass (ks : List String) : ∀ {s : SearchState V α}, q.Inv s →
    q.Advance ks s (q.pass ks s false).1 (q.pass ks s false).2 := by
  induction ks with
  | nil =>
    intro s h
    exact h.stay (List.prefix_refl _) rfl fun _ key hkey => by cases hkey
  | cons key ks ih =>
    intro s h
    rw [QuickSearch.pass]
    split
    · rename_i hspent
      exact h.stay (List.prefix_refl _) rfl fun hfalse =>
        absurd (hspent.symm.trans hfalse) (by decide)
    · have hkey := h.tryKey key
      simp only [Bool.false_or]
      rw [pass_improved]
      exact hkey.trans (ih hkey.inv)

/-! ### The whole search -/

/-- Where the loop ends, however many turns are left. -/
structure Ends (q : QuickSearch V α) (turns : ℕ) (s s' : SearchState V α) : Prop where
  result : ∀ fuel, turns < fuel → q.climb fuel s = some s'
  inv : q.Inv s'
  seen : q.spent s' = false → q.Seen q.keys s'.current s'

theorem Inv.ends_of_spent (h : q.Inv s) (hspent : q.spent s = true) (n : ℕ) : q.Ends n s s where
  result fuel hfuel := by
    obtain ⟨fuel, rfl⟩ := Nat.exists_eq_succ_of_ne_zero (Nat.ne_zero_of_lt hfuel)
    rw [climb, if_pos hspent]
  inv := h
  seen hleft := absurd (hspent.symm.trans hleft) (by decide)

/-- **The loop ends**, since every pass but the last uses up budget, and its last pass has seen all
steps from the point where it ends, unless the budget is at its end. -/
theorem Inv.climb (n : ℕ) : ∀ {s : SearchState V α}, q.Inv s →
    q.maxTrials.toNat - s.points.length ≤ n → ∃ s', q.Ends n s s' := by
  induction n with
  | zero =>
    intro s h hn
    have hspent : q.spent s = true := by
      rw [← Bool.not_eq_false, spent_eq_false]
      omega
    exact ⟨s, h.ends_of_spent hspent 0⟩
  | succ n ih =>
    intro s h hn
    cases hspent : q.spent s with
    | true => exact ⟨s, h.ends_of_spent hspent (n + 1)⟩
    | false =>
      have hpass := h.pass q.keys
      have hturn : ∀ fuel, q.climb (fuel + 1) s =
          if (q.pass q.keys s false).2 then q.climb fuel (q.pass q.keys s false).1
          else some (q.pass q.keys s false).1 := by
        intro fuel
        rw [QuickSearch.climb, if_neg (by simp [hspent])]
      cases hmoved : (q.pass q.keys s false).2 with
      | true =>
        -- the points of this pass are paid from the budget
        have hlength := hpass.grew hmoved
        obtain ⟨s', hends⟩ := ih hpass.inv (by omega)
        refine ⟨s', fun fuel hfuel => ?_, hends.inv, hends.seen⟩
        obtain ⟨fuel, rfl⟩ := Nat.exists_eq_succ_of_ne_zero (Nat.ne_zero_of_lt hfuel)
        rw [hturn, if_pos hmoved]
        exact hends.result fuel (Nat.lt_of_succ_lt_succ hfuel)
      | false =>
        obtain ⟨hcurrent, hseen⟩ := hpass.stayed hmoved
        refine ⟨_, fun fuel hfuel => ?_, hpass.inv, hcurrent.symm ▸ hseen⟩
        obtain ⟨fuel, rfl⟩ := Nat.exists_eq_succ_of_ne_zero (Nat.ne_zero_of_lt hfuel)
        rw [hturn, if_neg (by simp [hmoved])]

theorem inv_start : q.Inv q.start := by
  have hempty : q.Memo { result := { totalPoints := q.grid.configPoints.length } } :=
    ⟨List.nodup_nil, fun p => rfl⟩
  have hbaseline : (⟨∅⟩ : ConfigPoint V) ∉ ([] : List (ConfigPoint V)) := List.not_mem_nil
  have hmemo : q.Memo q.start := by
    refine hempty.insert hbaseline ?_ ?_
    · rw [start, hempty.measure_of_not_mem hbaseline]
      rfl
    · rw [start, hempty.measure_of_not_mem hbaseline]
  have hpoints : q.start.points = [⟨∅⟩] := by
    rw [start, hempty.measure_of_not_mem hbaseline]
    rfl
  have hvalue : q.start.currentValue = q.value ⟨∅⟩ := by
    rw [start, hempty.measure_of_not_mem hbaseline]
  refine ⟨hmemo, ?_, ?_, hvalue.symm, ?_, rfl, rfl⟩
  · rw [hpoints]
    exact le_max_left _ _
  · rw [hpoints]
    exact List.mem_singleton_self _
  · rw [hpoints, List.forall_mem_singleton, hvalue]

/-- A state at the end of the loop. -/
theorem Inv.localOptimum (h : q.Inv s) (hseen : q.spent s = false → q.Seen q.keys s.current s)
    (trials : List (TrialRecord α)) : LocalOptimum q { s.result with trials := trials } where
  budget := h.budget
  nodup := h.memo.nodup
  largest w hw := by
    have hvalue : s.currentValue = some w := h.bestValue.symm.trans hw
    refine ⟨⟨s.current, h.mem, h.value.trans hvalue⟩, ?_⟩
    rintro v ⟨p, hp, hv⟩
    have hle := h.top p hp
    rw [hv, hvalue] at hle
    exact WithBot.coe_le_coe.mp hle
  missing hnone p hp := by
    have hvalue : s.currentValue = none := h.bestValue.symm.trans hnone
    have hle := h.top p hp
    cases hv : q.value p with
    | none => rfl
    | some v => simp [hv, hvalue] at hle
  attained := ⟨s.current, h.mem, h.best, h.value.trans h.bestValue.symm⟩
  single hleft best hbest p hstep := by
    obtain rfl : s.current = best := Option.some.inj (h.best.symm.trans hbest)
    have hp := (hseen (spent_eq_false.mpr hleft)).mem_points hstep
    have hle := h.top p hp
    rw [← h.bestValue] at hle
    exact score_le_iff.mp hle

/-- **The quick search ends at a local optimum.** More turns than there are trials in the budget are
not needed. -/
theorem quickSearch_localOptimum (q : QuickSearch V α) :
    ∃ result, (∀ fuel, q.maxTrials.toNat < fuel → q.quickSearch fuel = some result) ∧
      LocalOptimum q result := by
  have hstart : q.Inv q.start := inv_start
  obtain ⟨s, hends⟩ := hstart.climb q.maxTrials.toNat (Nat.sub_le _ _)
  refine ⟨_, fun fuel hfuel => ?_, hends.inv.localOptimum hends.seen
    (s.result.trials.insertionSort (·.index ≤ ·.index))⟩
  rw [quickSearch, hends.result fuel hfuel]
  rfl

end QuickSearch

/-! ### A knob that is better left alone -/

/-- No knob is set. -/
def unsetPoint : ConfigPoint ℕ := ⟨∅⟩

/-- More workers are good with the batches of the configuration, and not with larger ones. -/
def interplayValue (p : ConfigPoint ℕ) : ℕ :=
  match p.values.lookup "max_batch_size", p.values.lookup "workers_per_device" with
  | none, none => 0
  | some _, none => 1
  | some _, some _ => 2
  | none, some _ => 10

/-- A search over two knobs of one value each. -/
def interplay : QuickSearch ℕ ℕ where
  measurePoint p := [⟨0, .ok, some ⟨some (interplayValue p), none, none⟩⟩]
  grid := ⟨(IndexMap.empty.insert "max_batch_size" [8]).insert "workers_per_device" [4]⟩
  objective := .throughput

/-- Both knobs are set. -/
def bothSet : ConfigPoint ℕ := (unsetPoint.set "max_batch_size" 8).set "workers_per_device" 4

/-- One knob is set. -/
def workersSet : ConfigPoint ℕ := unsetPoint.set "workers_per_device" 4

theorem lookup_unsetPoint (key : String) : unsetPoint.values.lookup key = none :=
  Finmap.lookup_empty key

theorem has_workersSet : interplay.grid.Has workersSet := by
  intro key value hvalue
  by_cases hkey : key = "workers_per_device"
  · subst hkey
    obtain rfl : 4 = value := Option.some.inj ((Finmap.lookup_insert _).symm.trans hvalue)
    decide
  · have hnone := (Finmap.lookup_insert_of_ne _ hkey).symm.trans hvalue
    rw [lookup_unsetPoint] at hnone
    cases hnone

theorem differ_workersSet : interplay.grid.Differ bothSet workersSet := by
  refine ⟨"max_batch_size", by decide, by decide, fun other hother => ?_⟩
  by_cases hkey : other = "workers_per_device"
  · rw [hkey]
    decide
  · have hboth : bothSet.values.lookup other = unsetPoint.values.lookup other :=
      (Finmap.lookup_insert_of_ne _ hkey).trans (Finmap.lookup_insert_of_ne _ hother)
    exact (Finmap.lookup_insert_of_ne _ hkey).trans hboth.symm

/-- The search raises the batch size first and does not come back to it. -/
theorem unset_knob_better :
    ∃ fuel result best p, interplay.quickSearch fuel = some result ∧
      result.pointsMeasured.length < interplay.maxTrials ∧ result.best = some best ∧
      interplay.grid.Has p ∧ interplay.grid.Differ best p ∧
      ∃ v w, interplay.value p = some v ∧ result.bestValue = some w ∧ w < v := by
  have hrun : ((interplay.quickSearch 3).any fun result =>
      decide (result.pointsMeasured.length < interplay.maxTrials ∧ result.best = some bothSet ∧
        result.bestValue = some 2)) = true := by decide +kernel
  obtain ⟨result, hresult, hend⟩ := (Option.any_eq_true _ _).mp hrun
  obtain ⟨hlength, hbest, hvalue⟩ := of_decide_eq_true hend
  exact ⟨3, result, bothSet, workersSet, hresult, hlength, hbest, has_workersSet,
    differ_workersSet, 10, 2, by decide, hvalue, by decide⟩

end LiteServer.Profile
