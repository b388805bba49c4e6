import LiteServer.Message
import LiteServer.Queue.Outlier
import Mathlib.Data.List.GetD

/-!
# Worker selection on the queue path

`pick_worker` and the functions it is made of. Each one threads the `OutlierState`, because the
`is_ejected` calls inside may turn circuits half-open.

## What is a parameter

* the hash of a sequence key and a slot index (`DefaultHasher`);
* the two random draws of the power-of-two choice. The source redraws the second sample until it
  differs from the first, so the draw is taken from the other live slots;
* the floating-point test of the relative threshold, `relExceeded min load`.

## Main results

* `pickWorker_lt` — the picked index is in range whenever there is a worker, so indexing the
  per-slot counters with it cannot panic
-/

namespace LiteServer

namespace Queue

/-- A single item waiting in the inference queue. The response channel and the guards it carries
are part of the state of the functions that use them. -/
structure QueueItem where
  uid : String
  data : Bytes
  requestMeta : Option RequestMeta
  enqueuedAt : ℕ
  isWarmup : Bool
  deriving DecidableEq, Repr

/-- The value of one request header of an item. -/
def QueueItem.header (item : QueueItem) (name : String) : Option String :=
  item.requestMeta.bind fun m => m.headers.lookup name

/-- `BalanceConfig`: the absolute threshold, and the outcome of the floating-point comparison with
the relative one. -/
structure BalanceConfig where
  absThreshold : ℕ
  relExceeded : ℕ → ℕ → Bool

/-- Resolved affinity hint for one dispatch. -/
structure Affinity where
  seq : String
  preferred : Option ℕ
  deriving DecidableEq, Repr

/-- What a pick depends on besides the queue's own state. -/
structure PickEnv where
  /-- The clock reading. -/
  now : ℕ
  /-- The hash of `(key, index)`. -/
  hash : String → ℕ → ℕ
  /-- The two random draws of the power-of-two choice. -/
  draws : ℕ × ℕ
  /-- The registry hit of a sequence id, for this model version. -/
  lookup : String → Option ℕ

/-- The value of a non-empty run of decimal digits. -/
def parseDigits (digits : List Char) : Option ℕ :=
  if digits ≠ [] ∧ digits.all Char.isDigit then
    some (digits.foldl (fun acc c => 10 * acc + (c.toNat - '0'.toNat)) 0)
  else none

/-- `str::parse::<u32>` on the header value: an optional plus sign, then decimal digits. -/
def parseU32 (s : String) : Option ℕ :=
  let digits := match s.toList with
    | '+' :: cs => cs
    | cs => cs
  (parseDigits digits).filter (· < 2 ^ 32)

/-- `direct_pin`: the `x-lite-worker-id` pin of one item; malformed values are no pin. -/
def directPin (item : QueueItem) : Option ℕ :=
  (item.header "x-lite-worker-id").bind parseU32

/-- `batch_direct_pin`: the worker every pin-carrying item agrees on. -/
def batchDirectPin (batch : List QueueItem) : Option ℕ :=
  match batch.filterMap directPin with
  | [] => none
  | first :: pins => if pins.all (· == first) then some first else none

/-- `normalize_sequence_id`: an empty sequence id counts as absent. -/
def normalizeSequenceId (seq : Option String) : Option String :=
  seq.filter (· ≠ "")

/-- The running state of `batch_affinity`: first key seen, agreed worker, disagreement. -/
structure AffinityScan where
  firstSeq : Option String := none
  agreed : Option ℕ := none
  disagree : Bool := false

/-- One iteration of `batch_affinity`. -/
def AffinityScan.add (lookup : String → Option ℕ) (s : AffinityScan) (item : QueueItem) :
    AffinityScan :=
  let seq := normalizeSequenceId (item.requestMeta.bind (·.sequenceId))
  let key := seq.or ((item.header "x-lite-affinity-key").filter (· ≠ ""))
  match key with
  | none => s
  | some key =>
    let s := { s with firstSeq := s.firstSeq.or (some key) }
    -- registry stickiness follows the sequence id only
    match seq.bind lookup with
    | none => s
    | some w =>
      match s.agreed with
      | none => { s with agreed := some w }
      | some cur => if cur ≠ w then { s with disagree := true } else s

/-- `batch_affinity`: the affinity hint of a batch, `none` when no item carries a key. -/
def batchAffinity (lookup : String → Option ℕ) (batch : List QueueItem) : Option Affinity :=
  let s := batch.foldl (AffinityScan.add lookup) {}
  s.firstSeq.map fun seq => ⟨seq, if s.disagree then none else s.agreed⟩

/-! ### Least-loaded selection -/

/-- The three fallback tiers of `pick_worker_least_loaded`, each with its best slot and load. -/
structure Tiers where
  active : Option (ℕ × ℕ) := none
  ejected : Option (ℕ × ℕ) := none
  excluded : Option (ℕ × ℕ) := none

/-- Keep the candidate with the strictly lower load. -/
def keepLower (best : Option (ℕ × ℕ)) (i load : ℕ) : Option (ℕ × ℕ) :=
  match best with
  | none => some (i, load)
  | some (j, bestLoad) => if load < bestLoad then some (i, load) else some (j, bestLoad)

/-- One iteration of the scan in `pick_worker_least_loaded`. -/
def leastLoadedStep (now : ℕ) (exclude : List ℕ) (acc : Tiers × OutlierState) (slot : ℕ × ℕ) :
    Tiers × OutlierState :=
  let (tiers, o) := acc
  let (load, i) := slot
  -- a dead process can never reply: not a candidate in any tier
  if o.isDead i then (tiers, o)
  else if exclude.contains i then
    ({ tiers with excluded := keepLower tiers.excluded i load }, o)
  else
    let (ej, o) := o.isEjected now i
    if ej || o.isRecycling i then ({ tiers with ejected := keepLower tiers.ejected i load }, o)
    else ({ tiers with active := keepLower tiers.active i load }, o)

/-- `pick_worker_least_loaded`: the lowest load among the active slots, then among the ejected or
recycling ones, then among the excluded ones. -/
def pickWorkerLeastLoaded (inflight : List ℕ) (o : OutlierState) (now : ℕ) (exclude : List ℕ) :
    ℕ × OutlierState :=
  if inflight.length = 1 then (0, o)
  else
    let (tiers, o) := inflight.zipIdx.foldl (leastLoadedStep now exclude) ({}, o)
    ((((tiers.active.or tiers.ejected).or tiers.excluded).map (·.1)).getD 0, o)

/-! ### Affinity selection -/

/-- Neither ejected, dead, recycling nor excluded, tested in this order. -/
def isLive (o : OutlierState) (now : ℕ) (exclude : List ℕ) (i : ℕ) : Bool × OutlierState :=
  let (ej, o) := o.isEjected now i
  (!ej && !o.isDead i && !o.isRecycling i && !exclude.contains i, o)

/-- The live slots of a list of indices. -/
def liveSlots (now : ℕ) (exclude : List ℕ) : List ℕ → OutlierState → List ℕ × OutlierState
  | [], o => ([], o)
  | i :: is, o =>
    let (live, o) := isLive o now exclude i
    let (rest, o) := liveSlots now exclude is o
    (if live then i :: rest else rest, o)

/-- `affinity_overloaded`: is worker `w` loaded beyond the least-loaded other live worker by more
than the absolute or relative threshold? -/
def affinityOverloaded (inflight : List ℕ) (o : OutlierState) (now : ℕ) (exclude : List ℕ) (w : ℕ)
    (balance : BalanceConfig) : Bool × OutlierState :=
  let (others, o) := liveSlots now exclude ((List.range inflight.length).filter (· ≠ w)) o
  match (others.map fun i => inflight.getD i 0).min? with
  | none => (false, o)
  | some min =>
    let wload := inflight.getD w 0
    (decide (0 < balance.absThreshold ∧ min + balance.absThreshold < wload) ||
      (decide (0 < min) && balance.relExceeded min wload), o)

/-- `power_of_two_pick`: two distinct live slots, the less loaded wins; least-loaded when fewer
than two are live. -/
def powerOfTwoPick (inflight : List ℕ) (o : OutlierState) (env : PickEnv) (exclude : List ℕ) :
    ℕ × OutlierState :=
  let (live, o) := liveSlots env.now exclude (List.range inflight.length) o
  if live.length < 2 then pickWorkerLeastLoaded inflight o env.now exclude
  else
    let a := live.getD (env.draws.1 % live.length) 0
    let others := live.filter (· ≠ a)
    let b := others.getD (env.draws.2 % others.length) 0
    (if inflight.getD a 0 ≤ inflight.getD b 0 then a else b, o)

/-- One comparison of the rendezvous scan: the strictly greater hash wins. -/
def rendezvousStep (hash : String → ℕ → ℕ) (seq : String) (best : Option (ℕ × ℕ)) (i : ℕ) :
    Option (ℕ × ℕ) :=
  match best with
  | none => some (hash seq i, i)
  | some (bh, j) => if bh < hash seq i then some (hash seq i, i) else some (bh, j)

/-- `rendezvous_pick`: the live slot with the greatest hash, `none` if no slot is live. -/
def rendezvousPick (seq : String) (numWorkers : ℕ) (o : OutlierState) (env : PickEnv)
    (exclude : List ℕ) : Option ℕ × OutlierState :=
  let (live, o) := liveSlots env.now exclude (List.range numWorkers) o
  ((live.foldl (rendezvousStep env.hash seq) none).map (·.2), o)

/-- `pick_worker`: the preferred slot when it is live and not overloaded, else power-of-two or
rendezvous over the live slots; without an affinity, least-loaded. -/
def pickWorker (inflight : List ℕ) (o : OutlierState) (env : PickEnv) (exclude : List ℕ)
    (affinity : Option Affinity) (balance : BalanceConfig) : ℕ × OutlierState :=
  match affinity with
  | none => pickWorkerLeastLoaded inflight o env.now exclude
  | some ⟨seq, preferred⟩ =>
    if inflight.length ≤ 1 then (0, o)
    else
      let rendezvous (o : OutlierState) : ℕ × OutlierState :=
        match rendezvousPick seq inflight.length o env exclude with
        | (some i, o) => (i, o)
        | (none, o) => pickWorkerLeastLoaded inflight o env.now exclude
      match preferred with
      | some w =>
        if w < inflight.length then
          match isLive o env.now exclude w with
          | (true, o) =>
            match affinityOverloaded inflight o env.now exclude w balance with
            | (true, o) => powerOfTwoPick inflight o env exclude
            | (false, o) => (w, o)
          | (false, o) => rendezvous o
        else rendezvous o
      | none => rendezvous o

/-! ### The picked index is in range

Only the index is bounded here, not the slot's availability: the bound is what makes
`inflight[worker_idx]` and `zmq_clients[worker_idx]` safe, whatever the outlier state says. -/

/-- Every candidate of every tier is below `n`. -/
structure Tiers.Below (n : ℕ) (t : Tiers) : Prop where
  active : ∀ p ∈ t.active, p.1 < n
  ejected : ∀ p ∈ t.ejected, p.1 < n
  excluded : ∀ p ∈ t.excluded, p.1 < n

variable {n i : ℕ}

theorem keepLower_below {load : ℕ} {best : Option (ℕ × ℕ)} (h : ∀ p ∈ best, p.1 < n) (hi : i < n) :
    ∀ p ∈ keepLower best i load, p.1 < n := by
  intro p hp
  cases best with
  | none =>
    simp only [keepLower, Option.mem_def, Option.some.injEq] at hp
    exact hp ▸ hi
  | some q =>
    simp only [keepLower] at hp
    split at hp <;> simp only [Option.mem_def, Option.some.injEq] at hp
    · exact hp ▸ hi
    · exact hp ▸ h q rfl

variable {exclude : List ℕ} {now : ℕ}

theorem leastLoadedStep_below {acc : Tiers × OutlierState} {slot : ℕ × ℕ} (h : acc.1.Below n)
    (hi : slot.2 < n) : (leastLoadedStep now exclude acc slot).1.Below n := by
  simp only [leastLoadedStep]
  split
  · exact h
  · split
    · exact ⟨h.active, h.ejected, keepLower_below h.excluded hi⟩
    · split
      · exact ⟨h.active, keepLower_below h.ejected hi, h.excluded⟩
      · exact ⟨keepLower_below h.active hi, h.ejected, h.excluded⟩

variable {inflight : List ℕ}

theorem pickWorkerLeastLoaded_lt (hpos : 0 < inflight.length) (o : OutlierState) (now : ℕ)
    (exclude : List ℕ) : (pickWorkerLeastLoaded inflight o now exclude).1 < inflight.length := by
  rw [pickWorkerLeastLoaded]
  split
  · exact hpos
  · have hbelow : (inflight.zipIdx.foldl (leastLoadedStep now exclude) ({}, o)).1.Below
        inflight.length :=
      List.foldlRecOn (motive := fun acc : Tiers × OutlierState => acc.1.Below inflight.length)
        _ _ ⟨by simp, by simp, by simp⟩ fun acc hacc slot hslot =>
        leastLoadedStep_below hacc (by
          have := List.snd_lt_of_mem_zipIdx hslot
          omega)
    cases hbest : ((inflight.zipIdx.foldl (leastLoadedStep now exclude) ({}, o)).1.active.or
        (inflight.zipIdx.foldl (leastLoadedStep now exclude) ({}, o)).1.ejected).or
        (inflight.zipIdx.foldl (leastLoadedStep now exclude) ({}, o)).1.excluded with
    | none => simpa [hbest] using hpos
    | some p =>
      have hp : p.1 < inflight.length := by
        rcases Option.or_eq_some_iff.mp hbest with h | ⟨-, h⟩
        · rcases Option.or_eq_some_iff.mp h with h | ⟨-, h⟩
          · exact hbelow.active p h
          · exact hbelow.ejected p h
        · exact hbelow.excluded p h
      simpa [hbest] using hp

theorem mem_of_mem_liveSlots {is : List ℕ} :
    ∀ {o : OutlierState} {i : ℕ}, i ∈ (liveSlots now exclude is o).1 → i ∈ is := by
  induction is with
  | nil => intro o i h; exact h
  | cons j is ih =>
    intro o i h
    simp only [liveSlots] at h
    split at h
    · rcases List.mem_cons.mp h with rfl | h
      · exact List.mem_cons_self ..
      · exact List.mem_cons_of_mem _ (ih h)
    · exact List.mem_cons_of_mem _ (ih h)

variable {o : OutlierState}

theorem lt_of_mem_liveSlots_range (h : i ∈ (liveSlots now exclude (List.range n) o).1) : i < n :=
  List.mem_range.mp (mem_of_mem_liveSlots h)

/-- An index read out of a non-empty list of in-range slots is in range. -/
theorem getD_mod_lt {k : ℕ} {l : List ℕ} (hne : l ≠ []) (hl : ∀ i ∈ l, i < n) :
    l.getD (k % l.length) 0 < n := by
  have hk : k % l.length < l.length := Nat.mod_lt _ (List.length_pos_iff.mpr hne)
  rw [List.getD_eq_getElem _ _ hk]
  exact hl _ (List.getElem_mem hk)

theorem powerOfTwoPick_lt (hpos : 0 < inflight.length) (o : OutlierState) (env : PickEnv)
    (exclude : List ℕ) : (powerOfTwoPick inflight o env exclude).1 < inflight.length := by
  have hlive : ∀ i ∈ (liveSlots env.now exclude (List.range inflight.length) o).1,
      i < inflight.length := fun i hi => lt_of_mem_liveSlots_range hi
  simp only [powerOfTwoPick]
  generalize liveSlots env.now exclude (List.range inflight.length) o = r at hlive ⊢
  split
  · exact pickWorkerLeastLoaded_lt hpos ..
  · rename_i hlen
    have hne : r.1 ≠ [] := by
      intro h
      simp [h] at hlen
    have ha := getD_mod_lt (k := env.draws.1) hne hlive
    split
    · exact ha
    · -- the second sample comes from the slots other than the first, if there is any
      by_cases hothers : (r.1.filter (· ≠ r.1.getD (env.draws.1 % r.1.length) 0)) = []
      · rw [hothers]
        exact hpos
      · exact getD_mod_lt hothers fun i hi => hlive i (List.mem_filter.mp hi).1

theorem rendezvousPick_lt {seq : String} {env : PickEnv}
    (h : (rendezvousPick seq n o env exclude).1 = some i) : i < n := by
  have hlive : ∀ i ∈ (liveSlots env.now exclude (List.range n) o).1, i < n :=
    fun i hi => lt_of_mem_liveSlots_range hi
  simp only [rendezvousPick] at h
  generalize liveSlots env.now exclude (List.range n) o = r at hlive h
  have hbest : ∀ p ∈ r.1.foldl (rendezvousStep env.hash seq) none, p.2 < n :=
    List.foldlRecOn (motive := fun best : Option (ℕ × ℕ) => ∀ p ∈ best, p.2 < n) _ _ (by simp)
      fun best hb j hj p hp => by
        cases best with
        | none =>
          simp only [rendezvousStep, Option.mem_def, Option.some.injEq] at hp
          exact hp ▸ hlive j hj
        | some q =>
          simp only [rendezvousStep] at hp
          split at hp <;> simp only [Option.mem_def, Option.some.injEq] at hp
          · exact hp ▸ hlive j hj
          · exact hp ▸ hb q rfl
  obtain ⟨p, hp, rfl⟩ := Option.map_eq_some_iff.mp h
  exact hbest p hp

/-- **The picked index is in range**, for every outlier state, exclude list, affinity, threshold
and random draw. -/
theorem pickWorker_lt (hpos : 0 < inflight.length) (o : OutlierState) (env : PickEnv)
    (exclude : List ℕ) (affinity : Option Affinity) (balance : BalanceConfig) :
    (pickWorker inflight o env exclude affinity balance).1 < inflight.length := by
  have hrdv : ∀ (seq : String) (o : OutlierState),
      (match rendezvousPick seq inflight.length o env exclude with
        | (some i, o) => (i, o)
        | (none, o) => pickWorkerLeastLoaded inflight o env.now exclude).1 < inflight.length := by
    intro seq o
    split
    · rename_i i o' h
      exact rendezvousPick_lt (congrArg Prod.fst h)
    · exact pickWorkerLeastLoaded_lt hpos ..
  cases affinity with
  | none => exact pickWorkerLeastLoaded_lt hpos ..
  | some a =>
    simp only [pickWorker]
    split
    · exact hpos
    · split
      · split
        · rename_i w hw
          split
          · split
            · exact powerOfTwoPick_lt hpos ..
            · exact hw
          · exact hrdv _ _
        · exact hrdv _ _
      · exact hrdv _ _

end Queue

end LiteServer
