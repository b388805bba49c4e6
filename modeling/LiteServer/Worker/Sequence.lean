import LiteServer.Lib.IndexMap
import LiteServer.Lib.StepSystem
import Mathlib.Data.List.Perm.Basic
import Mathlib.Order.Lattice

/-!
# The sequence registry

`SequenceRegistry` remembers the worker that served a sequence id last, with the model and the
version it was for. Every access to the map is one step, and calls may overlap in any way. A clock
reading belongs to the access it stands next to; the clock may move before every access. A walk
over the map meets its entries in any order.

`lookup` reads the map twice. The model and the version are compared under the first guard; the
worker is read under the second one, from whatever entry stands there then. So a `record` for
another model between the two hands that model's worker to the lookup.

The capacity holds when calls do not overlap, and the argument is short: `record` inserts only
where there is room or right after an eviction, and the eviction finds an entry because no entry
is younger than the clock.

## Main results

* `lookup_recorded` — without a foreign write in the gap every hit was recorded for exactly the
  sequence, model and version of the lookup; each such write can be followed by a wrong hit; and
  serial runs keep to `max_entries`
* `lookup_crosses_models` — the overlap that returns another model's worker
-/

namespace LiteServer

namespace Worker

/-- The settings of the registry: `new` never lets the capacity be zero. -/
structure SequenceConfig where
  ttl : ℕ
  maxEntries : ℕ
  maxEntries_pos : 0 < maxEntries

/-- `SequenceRegistry::new`. -/
def SequenceConfig.new (ttl maxEntries : ℕ) : SequenceConfig :=
  ⟨ttl, max maxEntries 1, lt_of_lt_of_le Nat.one_pos (le_max_right _ _)⟩

/-- `SequenceEntry`. -/
structure SequenceEntry where
  model : String
  version : String
  workerIdx : ℕ
  lastUsed : ℕ
  deriving DecidableEq, Repr

/-- What a lookup asks for. -/
structure SequenceQuery where
  sequenceId : String
  model : String
  version : String
  deriving DecidableEq, Repr

/-- What a `record` call says. -/
structure SequenceRecord where
  query : SequenceQuery
  workerIdx : ℕ
  deriving DecidableEq, Repr

/-- The entry a record writes. -/
def SequenceRecord.entry (r : SequenceRecord) (now : ℕ) : SequenceEntry :=
  ⟨r.query.model, r.query.version, r.workerIdx, now⟩

/-- What an entry says about its sequence. -/
def SequenceEntry.record (e : SequenceEntry) (sequenceId : String) : SequenceRecord :=
  ⟨⟨sequenceId, e.model, e.version⟩, e.workerIdx⟩

/-- The map of the registry. -/
abbrev SequenceMap := IndexMap String SequenceEntry

/-- A call of the registry. -/
inductive SequenceCall where
  | record (r : SequenceRecord)
  | lookup (q : SequenceQuery)
  | cleanup
  deriving DecidableEq, Repr

/-- What a call returns. -/
inductive SequenceAnswer where
  | lookup (q : SequenceQuery) (worker : Option ℕ)
  | cleanup (removed : ℕ)
  deriving DecidableEq, Repr

/-- Where a call is, named by the access it makes next. -/
inductive SequencePc where
  | idle
  /-- `record`: `self.map.len()`. -/
  | recordLen (r : SequenceRecord) (now : ℕ)
  /-- `evict_oldest`: the walk. -/
  | evictScan (r : SequenceRecord) (now : ℕ)
  /-- `evict_oldest`: the removal. -/
  | evict (r : SequenceRecord) (now : ℕ) (key : String)
  /-- `record`: `self.map.insert`. -/
  | insert (r : SequenceRecord) (now : ℕ)
  /-- `lookup`: the removal of an expired entry. -/
  | expire (q : SequenceQuery)
  /-- `lookup`: the write guard. -/
  | refresh (q : SequenceQuery)
  /-- `cleanup`: `self.map.len()`. -/
  | trimLen (removed : ℕ)
  /-- `cleanup`: the walk. -/
  | trimScan (surplus removed : ℕ)
  /-- `cleanup`: the removals. -/
  | trim (keys : List String) (removed : ℕ)
  deriving DecidableEq, Repr

/-- What an access leaves, and what is noted about it. -/
structure SequenceAccess where
  map : SequenceMap
  pc : SequencePc
  /-- The record written, if any. -/
  wrote : Option SequenceRecord := none
  /-- The answer, if the call returns one now. -/
  answer : Option SequenceAnswer := none

/-- The first access of a call. -/
def firstAccess (config : SequenceConfig) (clock : ℕ) (map : SequenceMap) :
    SequenceCall → SequenceAccess
  | .record r =>
    if r.query.sequenceId ∈ map.keys then
      { map := map.insert r.query.sequenceId (r.entry clock), pc := .idle, wrote := some r }
    else { map, pc := .recordLen r clock }
  | .lookup q =>
    match map.get? q.sequenceId with
    | none => { map, pc := .idle, answer := some (.lookup q none) }
    | some e =>
      if config.ttl < clock - e.lastUsed then { map, pc := .expire q }
      else if e.model ≠ q.model ∨ e.version ≠ q.version then
        { map, pc := .idle, answer := some (.lookup q none) }
      else { map, pc := .refresh q }
  | .cleanup =>
    let kept := map.retain fun _ e => clock - e.lastUsed < config.ttl
    { map := kept, pc := .trimLen (map.entries.length - kept.entries.length) }

/-- The walk of `evict_oldest`: the key it ends with, and the time. -/
def oldestKey (now : ℕ) (order : List (String × SequenceEntry)) : Option String × ℕ :=
  order.foldl
    (fun oldest e => if e.2.lastUsed ≤ oldest.2 then (some e.1, e.2.lastUsed) else oldest)
    (none, now)

/-- Every further access of a call. Walks take the order in which they meet the entries. -/
def nextAccess (config : SequenceConfig) (clock : ℕ) (map : SequenceMap)
    (order : List (String × SequenceEntry)) : SequencePc → Option SequenceAccess
  | .idle => none
  | .recordLen r now =>
    if config.maxEntries ≤ map.entries.length then some { map, pc := .evictScan r now }
    else some { map, pc := .insert r now }
  | .evictScan r now =>
    if order.Perm map.entries then
      match (oldestKey clock order).1 with
      | some key => some { map, pc := .evict r now key }
      | none => some { map, pc := .insert r now }
    else none
  | .evict r now key => some { map := map.erase key, pc := .insert r now }
  | .insert r now =>
    some { map := map.insert r.query.sequenceId (r.entry now), pc := .idle, wrote := some r }
  | .expire q =>
    some { map := map.erase q.sequenceId, pc := .idle, answer := some (.lookup q none) }
  | .refresh q =>
    match map.get? q.sequenceId with
    | none => some { map, pc := .idle, answer := some (.lookup q none) }
    | some e =>
      some
        { map := map.insert q.sequenceId { e with lastUsed := clock }
          pc := .idle
          answer := some (.lookup q (some e.workerIdx)) }
  | .trimLen removed =>
    let surplus := map.entries.length - config.maxEntries
    if 0 < surplus then some { map, pc := .trimScan surplus removed }
    else some { map, pc := .idle, answer := some (.cleanup removed) }
  | .trimScan surplus removed =>
    if order.Perm map.entries then
      let oldest := order.mergeSort fun e e' => e.2.lastUsed ≤ e'.2.lastUsed
      some { map, pc := .trim ((oldest.take surplus).map Prod.fst) removed }
    else none
  | .trim [] removed => some { map, pc := .idle, answer := some (.cleanup removed) }
  | .trim (key :: keys) removed => some { map := map.erase key, pc := .trim keys (removed + 1) }

/-- The registry and the calls under way. -/
structure SequenceState (ι : Type*) where
  map : SequenceMap
  clock : ℕ
  calls : ι → SequencePc
  /-- What has been written so far. -/
  recorded : List SequenceRecord
  /-- What has been returned so far. -/
  answers : List SequenceAnswer

/-- The steps of the registry. -/
inductive SequenceAction (ι : Type*) where
  | tick
  | start (i : ι) (call : SequenceCall)
  | next (i : ι) (order : List (String × SequenceEntry))

variable {ι : Type*}

/-- The access an action makes, and the call it belongs to. -/
def SequenceState.access (config : SequenceConfig) (s : SequenceState ι) :
    SequenceAction ι → Option (ι × SequenceAccess)
  | .tick => none
  | .start i call =>
    if s.calls i = .idle then some (i, firstAccess config s.clock s.map call) else none
  | .next i order => (nextAccess config s.clock s.map order (s.calls i)).map (i, ·)

variable [DecidableEq ι]

/-- The state after an access of call `i`. -/
def SequenceState.after (s : SequenceState ι) (i : ι) (x : SequenceAccess) : SequenceState ι where
  map := x.map
  clock := s.clock
  calls := Function.update s.calls i x.pc
  recorded := s.recorded ++ x.wrote.toList
  answers := s.answers ++ x.answer.toList

/-- The registry under any number of overlapping calls. -/
def sequenceSystem (ι : Type*) [DecidableEq ι] (config : SequenceConfig) :
    StepSystem (SequenceState ι) (SequenceAction ι) where
  init := ⟨.empty, 0, fun _ => .idle, [], []⟩
  step s
    | .tick => some { s with clock := s.clock + 1 }
    | a => (s.access config a).map fun x => s.after x.1 x.2

variable {config : SequenceConfig} {s s' : SequenceState ι} {a : SequenceAction ι}

/-- A step lets the clock move or makes one access. -/
theorem sequence_step (h : (sequenceSystem ι config).step s a = some s') :
    (a = .tick ∧ s' = { s with clock := s.clock + 1 }) ∨
      ∃ i x, s.access config a = some (i, x) ∧ s' = s.after i x := by
  cases a with
  | tick => exact .inl ⟨rfl, (Option.some.inj h).symm⟩
  | start i call | next i order =>
    obtain ⟨⟨j, x⟩, hx, rfl⟩ := Option.map_eq_some_iff.mp h
    exact .inr ⟨j, x, hx, rfl⟩

/-! ### What an access does -/

/-- What an access of a call at `pc` does to the map, as far as workers go: it writes a record and
the call is over, or it leaves no entry that was not there, up to its time. -/
def Access (map : SequenceMap) (pc : SequencePc) (x : SequenceAccess) : Prop :=
  (∃ r now, x.wrote = some r ∧ x.map = map.insert r.query.sequenceId (r.entry now) ∧
    (∀ q, pc ≠ .refresh q) ∧ x.pc = .idle ∧ x.answer = none) ∨
  x.wrote = none ∧
    (∀ k e', x.map.get? k = some e' → ∃ e, map.get? k = some e ∧ e'.record k = e.record k) ∧
    -- the first guard of a lookup has seen its own model and version
    (∀ q, x.pc = .refresh q →
      ∃ e, map.get? q.sequenceId = some e ∧ (e.record q.sequenceId).query = q) ∧
    -- the second one answers with the worker that stands there
    ∀ q w, x.answer = some (.lookup q (some w)) →
      pc = .refresh q ∧ ∃ e, map.get? q.sequenceId = some e ∧ e.workerIdx = w

theorem access_of_erased {map map' : SequenceMap} {pc pc' : SequencePc}
    {answer : Option SequenceAnswer} (hmap : ∀ k e, map'.get? k = some e → map.get? k = some e)
    (hpc : ∀ q, pc' ≠ .refresh q) (hanswer : ∀ q w, answer ≠ some (.lookup q (some w))) :
    Access map pc { map := map', pc := pc', answer } :=
  .inr ⟨rfl, fun k e h => ⟨e, hmap k e h, rfl⟩, fun q h => absurd h (hpc q),
    fun q w h => absurd h (hanswer q w)⟩

theorem get?_of_retain {map : SequenceMap} {p : String → SequenceEntry → Bool} (k : String)
    (e : SequenceEntry) (h : (map.retain p).get? k = some e) : map.get? k = some e :=
  IndexMap.get?_eq_some_iff.mpr (IndexMap.mem_retain.mp (IndexMap.mem_of_get? h)).1

theorem firstAccess_spec (config : SequenceConfig) (clock : ℕ) (map : SequenceMap)
    (call : SequenceCall) : Access map .idle (firstAccess config clock map call) := by
  cases call with
  | record r =>
    simp only [firstAccess]
    split
    · exact .inl ⟨r, clock, rfl, rfl, by simp, rfl, rfl⟩
    · exact access_of_erased (fun _ _ => id) (by simp) (by simp)
  | lookup q =>
    simp only [firstAccess]
    split
    · exact access_of_erased (fun _ _ => id) (by simp) (by simp)
    next e hget =>
      split_ifs with _ hother
      · exact access_of_erased (fun _ _ => id) (by simp) (by simp)
      · exact access_of_erased (fun _ _ => id) (by simp) (by simp)
      · obtain ⟨hmodel, hversion⟩ := not_or.mp hother
        refine .inr ⟨rfl, fun k e h => ⟨e, h, rfl⟩, ?_, by simp⟩
        rintro q' ⟨⟩
        refine ⟨e, hget, ?_⟩
        rw [SequenceEntry.record, not_not.mp hmodel, not_not.mp hversion]
  | cleanup => exact access_of_erased get?_of_retain (by simp) (by simp)

theorem nextAccess_spec {config : SequenceConfig} {clock : ℕ} {map : SequenceMap}
    {order : List (String × SequenceEntry)} {pc : SequencePc} {x : SequenceAccess}
    (h : nextAccess config clock map order pc = some x) : Access map pc x := by
  unfold nextAccess at h
  split at h
  case h_1 => cases h
  case h_2 =>
    split_ifs at h <;> cases h <;> exact access_of_erased (fun _ _ => id) (by simp) (by simp)
  case h_3 =>
    split_ifs at h
    split at h <;> cases h <;> exact access_of_erased (fun _ _ => id) (by simp) (by simp)
  case h_4 =>
    cases h
    exact access_of_erased get?_of_retain (by simp) (by simp)
  case h_5 r now =>
    cases h
    exact .inl ⟨r, now, rfl, rfl, by simp, rfl, rfl⟩
  case h_6 =>
    cases h
    exact access_of_erased get?_of_retain (by simp) (by simp)
  case h_7 q =>
    split at h <;> cases h
    · exact access_of_erased (fun _ _ => id) (by simp) (by simp)
    next e hget =>
      refine .inr ⟨rfl, fun k e' hk => ?_, by simp, ?_⟩
      · rw [IndexMap.get?_insert] at hk
        split_ifs at hk with heq
        · obtain rfl := Option.some.inj hk
          exact ⟨e, heq ▸ hget, rfl⟩
        · exact ⟨e', hk, rfl⟩
      · rintro q' w hq
        simp only [Option.some.injEq, SequenceAnswer.lookup.injEq] at hq
        obtain ⟨rfl, rfl⟩ := hq
        exact ⟨rfl, e, hget, rfl⟩
  case h_8 =>
    dsimp only at h
    split_ifs at h <;> cases h <;> exact access_of_erased (fun _ _ => id) (by simp) (by simp)
  case h_9 =>
    split_ifs at h
    cases h
    exact access_of_erased (fun _ _ => id) (by simp) (by simp)
  case h_10 =>
    cases h
    exact access_of_erased (fun _ _ => id) (by simp) (by simp)
  case h_11 =>
    cases h
    exact access_of_erased get?_of_retain (by simp) (by simp)

omit [DecidableEq ι] in
theorem access_cases {i : ι} {x : SequenceAccess} (h : s.access config a = some (i, x)) :
    (∃ call, a = .start i call ∧ s.calls i = .idle ∧ x = firstAccess config s.clock s.map call) ∨
      ∃ order, a = .next i order ∧ nextAccess config s.clock s.map order (s.calls i) = some x := by
  cases a with
  | tick => cases h
  | start j call =>
    simp only [SequenceState.access] at h
    split_ifs at h with hidle
    obtain ⟨rfl, rfl⟩ := Prod.mk.inj (Option.some.inj h)
    exact .inl ⟨call, rfl, hidle, rfl⟩
  | next j order =>
    obtain ⟨x', hx', heq⟩ := Option.map_eq_some_iff.mp h
    obtain ⟨rfl, rfl⟩ := Prod.mk.inj heq
    exact .inr ⟨order, rfl, hx'⟩

omit [DecidableEq ι] in
theorem access_spec {i : ι} {x : SequenceAccess} (h : s.access config a = some (i, x)) :
    Access s.map (s.calls i) x := by
  obtain ⟨call, -, hidle, rfl⟩ | ⟨order, -, hx⟩ := access_cases h
  · rw [hidle]
    exact firstAccess_spec config s.clock s.map call
  · exact nextAccess_spec hx

/-! ### Hits -/

/-- A write that lands between the two guards of a lookup for another model or version of the same
sequence, with a worker that was never recorded for what is looked up. -/
def Foreign (config : SequenceConfig) (s : SequenceState ι) (a : SequenceAction ι) : Prop :=
  ∃ i x r, s.access config a = some (i, x) ∧ x.wrote = some r ∧
    ∃ j q, s.calls j = .refresh q ∧ q.sequenceId = r.query.sequenceId ∧ q ≠ r.query ∧
      (⟨q, r.workerIdx⟩ : SequenceRecord) ∉ s.recorded

/-- Entries, the hits under way and the hits returned have all been recorded. -/
structure Faithful (s : SequenceState ι) : Prop where
  entries : ∀ k e, s.map.get? k = some e → e.record k ∈ s.recorded
  pending : ∀ j q e, s.calls j = .refresh q → s.map.get? q.sequenceId = some e →
    (⟨q, e.workerIdx⟩ : SequenceRecord) ∈ s.recorded
  answers : ∀ q w, .lookup q (some w) ∈ s.answers → (⟨q, w⟩ : SequenceRecord) ∈ s.recorded

/-- A write outside every gap. -/
theorem Faithful.write {i : ι} {x : SequenceAccess} {r : SequenceRecord} {now : ℕ}
    (h : Faithful s) (hforeign : ∀ j q, s.calls j = .refresh q →
      q.sequenceId = r.query.sequenceId → q ≠ r.query →
        (⟨q, r.workerIdx⟩ : SequenceRecord) ∈ s.recorded)
    (hwrote : x.wrote = some r)
    (hmap : x.map = s.map.insert r.query.sequenceId (r.entry now)) (hpc : x.pc = .idle)
    (hanswer : x.answer = none) : Faithful (s.after i x) := by
  have hrecorded : (s.after i x).recorded = s.recorded ++ [r] := by
    simp [SequenceState.after, hwrote]
  refine ⟨fun k e hget => ?_, fun j q e hcall hget => ?_, fun q w hw => ?_⟩
  · simp only [SequenceState.after, hmap, IndexMap.get?_insert] at hget
    rw [hrecorded, List.mem_append]
    split_ifs at hget with hk
    · obtain rfl := Option.some.inj hget
      exact .inr (by simp [hk, SequenceEntry.record, SequenceRecord.entry])
    · exact .inl (h.entries k e hget)
  · have hcall' : s.calls j = .refresh q := by
      by_cases hj : j = i
      · simp [SequenceState.after, hj, hpc] at hcall
      · simpa [SequenceState.after, hj] using hcall
    simp only [SequenceState.after, hmap, IndexMap.get?_insert] at hget
    rw [hrecorded, List.mem_append]
    split_ifs at hget with hk
    · obtain rfl := Option.some.inj hget
      by_cases hq : q = r.query
      · exact .inr (by simp [hq, SequenceRecord.entry])
      · exact .inl (hforeign j q hcall' hk hq)
    · exact .inl (h.pending j q e hcall' hget)
  · rw [hrecorded, List.mem_append]
    exact .inl (h.answers q w (by simpa [SequenceState.after, hanswer] using hw))

theorem Faithful.step (h : Faithful s) (hforeign : ¬ Foreign config s a)
    (hstep : (sequenceSystem ι config).step s a = some s') : Faithful s' := by
  obtain ⟨-, rfl⟩ | ⟨i, x, hx, rfl⟩ := sequence_step hstep
  · exact ⟨h.entries, h.pending, h.answers⟩
  obtain ⟨r, now, hwrote, hmap, -, hpc, hanswer⟩ | ⟨hwrote, hmap, hpc, hanswer⟩ := access_spec hx
  · refine h.write (fun j q hcall hk hq => ?_) hwrote hmap hpc hanswer
    by_contra hnew
    exact hforeign ⟨i, x, r, hx, hwrote, j, q, hcall, hk, hq, hnew⟩
  · have hrecorded : (s.after i x).recorded = s.recorded := by simp [SequenceState.after, hwrote]
    refine ⟨fun k e' hget => ?_, fun j q e' hcall hget => ?_, fun q w hw => ?_⟩
    · obtain ⟨e, hget', heq⟩ := hmap k e' hget
      rw [hrecorded, heq]
      exact h.entries k e hget'
    · obtain ⟨e, hget', heq⟩ := hmap q.sequenceId e' hget
      have hworker : e'.workerIdx = e.workerIdx := congrArg SequenceRecord.workerIdx heq
      rw [hrecorded, hworker]
      by_cases hj : j = i
      · -- the first guard: the entry is for this query
        obtain ⟨e₁, hget₁, hq⟩ := hpc q (by simpa [SequenceState.after, hj] using hcall)
        obtain rfl := Option.some.inj (hget'.symm.trans hget₁)
        have := h.entries _ e hget'
        rwa [← hq]
      · exact h.pending j q e (by simpa [SequenceState.after, hj] using hcall) hget'
    · rw [hrecorded]
      obtain hw | hw : .lookup q (some w) ∈ s.answers ∨ x.answer = some (.lookup q (some w)) := by
        simpa [SequenceState.after] using hw
      · exact h.answers q w hw
      · obtain ⟨hcall, e, hget, rfl⟩ := hanswer q w hw
        exact h.pending i q e hcall hget

/-- The second guard of a lookup answers with the worker of the entry that stands there. -/
theorem exists_refresh {j : ι} {q : SequenceQuery} {e : SequenceEntry}
    (hcall : s.calls j = .refresh q) (hget : s.map.get? q.sequenceId = some e) :
    ∃ s', (sequenceSystem ι config).step s (.next j []) = some s' ∧
      s'.answers = s.answers ++ [.lookup q (some e.workerIdx)] ∧ s'.recorded = s.recorded := by
  let x : SequenceAccess :=
    { map := s.map.insert q.sequenceId { e with lastUsed := s.clock }
      pc := .idle
      answer := some (.lookup q (some e.workerIdx)) }
  refine ⟨s.after j x, ?_, rfl, List.append_nil _⟩
  simp only [sequenceSystem, SequenceState.access, hcall, nextAccess, hget, Option.map_some, x]

/-- A foreign write is followed by a wrong hit if the lookup goes on next. -/
theorem exists_wrong_of_foreign (hforeign : Foreign config s a)
    (hstep : (sequenceSystem ι config).step s a = some s') :
    ∃ b s'' q w, (sequenceSystem ι config).step s' b = some s'' ∧
      .lookup q (some w) ∈ s''.answers ∧ (⟨q, w⟩ : SequenceRecord) ∉ s''.recorded := by
  obtain ⟨i, x, r, hx, hwrote, j, q, hcall, hseq, hq, hnew⟩ := hforeign
  obtain ⟨rfl, -⟩ | ⟨i', x', hx', rfl⟩ := sequence_step hstep
  · cases hx
  obtain ⟨rfl, rfl⟩ := Prod.mk.inj (Option.some.inj (hx'.symm.trans hx))
  obtain ⟨r', now, hwrote', hmap, hgap, -, -⟩ | ⟨hwrote', -⟩ := access_spec hx
  swap
  · simp [hwrote] at hwrote'
  obtain rfl := Option.some.inj (hwrote'.symm.trans hwrote)
  have hj : j ≠ i' := fun hj => hgap q (hj ▸ hcall)
  have hcall' : (s.after i' x').calls j = .refresh q := by
    simpa [SequenceState.after, hj] using hcall
  have hget : (s.after i' x').map.get? q.sequenceId = some (r'.entry now) := by
    simp [SequenceState.after, hmap, hseq]
  obtain ⟨s'', hstep', hanswers, hrecorded⟩ := exists_refresh (s := s.after i' x') hcall' hget
  refine ⟨.next j [], s'', q, r'.workerIdx, hstep', ?_, ?_⟩
  · simp [hanswers, SequenceRecord.entry]
  · rw [hrecorded]
    simp only [SequenceState.after, hwrote, Option.toList_some, List.mem_append,
      List.mem_singleton, not_or]
    exact ⟨hnew, fun h => hq (congrArg SequenceRecord.query h)⟩

/-! ### Serial runs -/

/-- No other call is under way. -/
def Serial (s : SequenceState ι) : SequenceAction ι → Prop
  | .tick => True
  | .start i _ | .next i _ => ∀ j, j ≠ i → s.calls j = .idle

/-- The map is within its capacity, and no entry is younger than the clock. -/
structure Bounded (config : SequenceConfig) (clock : ℕ) (map : SequenceMap) : Prop where
  length_le : map.entries.length ≤ config.maxEntries
  lastUsed_le : ∀ e ∈ map.entries, e.2.lastUsed ≤ clock

/-- What the only call under way has found out. -/
def Fits (config : SequenceConfig) (clock : ℕ) (map : SequenceMap) : SequencePc → Prop
  | .recordLen _ now => now ≤ clock
  | .evictScan _ now => now ≤ clock ∧ map.entries ≠ []
  | .evict _ now key => now ≤ clock ∧ key ∈ map.keys
  | .insert _ now => now ≤ clock ∧ map.entries.length < config.maxEntries
  | _ => True

section Bounded

variable {clock : ℕ} {map : SequenceMap} {k : String} {e : SequenceEntry}

theorem Bounded.retain (h : Bounded config clock map) (p : String → SequenceEntry → Bool) :
    Bounded config clock (map.retain p) :=
  ⟨(List.length_filter_le ..).trans h.length_le,
    fun e he => h.lastUsed_le e (IndexMap.mem_retain.mp he).1⟩

theorem Bounded.erase (h : Bounded config clock map) (k : String) :
    Bounded config clock (map.erase k) :=
  h.retain _

theorem Bounded.insert (h : Bounded config clock map)
    (hroom : k ∈ map.keys ∨ map.entries.length < config.maxEntries) (he : e.lastUsed ≤ clock) :
    Bounded config clock (map.insert k e) := by
  refine ⟨?_, fun e' he' => ?_⟩
  · rw [IndexMap.length_insert]
    split_ifs with hk
    · exact h.length_le
    · exact hroom.resolve_left hk
  · obtain rfl | he' := IndexMap.mem_of_mem_insert he'
    · exact he
    · exact h.lastUsed_le e' he'

/-- The walk of an eviction finds an entry when no entry is younger than the clock. -/
theorem oldestKey_of_le {order : List (String × SequenceEntry)} {now : ℕ} (hne : order ≠ [])
    (hle : ∀ e ∈ order, e.2.lastUsed ≤ now) :
    ∃ key ∈ order.map Prod.fst, (oldestKey now order).1 = some key := by
  -- from the first entry on the walk has a key, and every key it takes is one of the map
  have hwalk : ∀ (order' : List (String × SequenceEntry)) (oldest : Option String × ℕ),
      (∃ key ∈ order.map Prod.fst, oldest.1 = some key) → order' ⊆ order →
      ∃ key ∈ order.map Prod.fst, (order'.foldl (fun oldest e =>
        if e.2.lastUsed ≤ oldest.2 then (some e.1, e.2.lastUsed) else oldest) oldest).1 =
          some key := by
    intro order'
    induction order' with
    | nil => exact fun oldest hkey _ => hkey
    | cons e order' ih =>
      intro oldest hkey hsub
      refine ih _ ?_ fun e' he' => hsub (List.mem_cons_of_mem e he')
      dsimp only
      split
      · exact ⟨e.1, List.mem_map_of_mem (hsub List.mem_cons_self), rfl⟩
      · exact hkey
  obtain ⟨e, order', rfl⟩ := List.exists_cons_of_ne_nil hne
  simp only [oldestKey, List.foldl_cons, if_pos (hle e List.mem_cons_self)]
  exact hwalk order' _ ⟨e.1, by simp, rfl⟩ (List.subset_cons_self e order')

theorem firstAccess_fits (h : Bounded config clock map) (call : SequenceCall) :
    Bounded config clock (firstAccess config clock map call).map ∧
      Fits config clock (firstAccess config clock map call).map
        (firstAccess config clock map call).pc := by
  cases call with
  | record r =>
    simp only [firstAccess]
    split_ifs with hk
    · exact ⟨h.insert (.inl hk) le_rfl, trivial⟩
    · exact ⟨h, le_rfl⟩
  | lookup q =>
    simp only [firstAccess]
    split
    · exact ⟨h, trivial⟩
    · split_ifs <;> exact ⟨h, trivial⟩
  | cleanup => exact ⟨h.retain fun _ e => clock - e.lastUsed < config.ttl, trivial⟩

theorem nextAccess_fits {order : List (String × SequenceEntry)} {pc : SequencePc}
    {x : SequenceAccess} (hx : nextAccess config clock map order pc = some x)
    (h : Bounded config clock map) (hpc : Fits config clock map pc) :
    Bounded config clock x.map ∧ Fits config clock x.map x.pc := by
  unfold nextAccess at hx
  split at hx
  case h_1 => cases hx
  case h_2 =>
    split_ifs at hx with hfull
    · cases hx
      refine ⟨h, hpc, fun hempty => ?_⟩
      rw [hempty] at hfull
      exact absurd config.maxEntries_pos (not_lt.mpr hfull)
    · cases hx
      exact ⟨h, hpc, not_le.mp hfull⟩
  case h_3 =>
    split_ifs at hx with hperm
    obtain ⟨key, hkey, holdest⟩ :=
      oldestKey_of_le (fun hempty => hpc.2 (by simpa [hempty] using hperm))
      fun e he => h.lastUsed_le e (hperm.mem_iff.mp he)
    rw [holdest] at hx
    cases hx
    exact ⟨h, hpc.1, (hperm.map Prod.fst).mem_iff.mp hkey⟩
  case h_4 =>
    cases hx
    exact ⟨h.erase _, hpc.1, lt_of_lt_of_le (IndexMap.length_erase_lt hpc.2) h.length_le⟩
  case h_5 =>
    cases hx
    exact ⟨h.insert (.inr hpc.2) hpc.1, trivial⟩
  case h_6 =>
    cases hx
    exact ⟨h.erase _, trivial⟩
  case h_7 =>
    split at hx <;> cases hx
    · exact ⟨h, trivial⟩
    · exact ⟨h.insert (.inl (IndexMap.mem_keys_of_get? ‹_›)) le_rfl, trivial⟩
  case h_8 =>
    dsimp only at hx
    split_ifs at hx <;> cases hx <;> exact ⟨h, trivial⟩
  case h_9 =>
    split_ifs at hx
    cases hx
    exact ⟨h, trivial⟩
  case h_10 =>
    cases hx
    exact ⟨h, trivial⟩
  case h_11 =>
    cases hx
    exact ⟨h.erase _, trivial⟩

theorem Fits.tick {pc : SequencePc} (h : Fits config clock map pc) :
    Fits config (clock + 1) map pc := by
  cases pc with
  | recordLen r now => exact Nat.le_succ_of_le h
  | evictScan r now | evict r now key | insert r now => exact ⟨Nat.le_succ_of_le h.1, h.2⟩
  | _ => trivial

end Bounded

/-- What holds between the accesses of a serial run. -/
def Capacity (config : SequenceConfig) (s : SequenceState ι) : Prop :=
  Bounded config s.clock s.map ∧ ∀ i, Fits config s.clock s.map (s.calls i)

theorem Capacity.step (h : Capacity config s) (hserial : Serial s a)
    (hstep : (sequenceSystem ι config).step s a = some s') : Capacity config s' := by
  obtain ⟨-, rfl⟩ | ⟨i, x, hx, rfl⟩ := sequence_step hstep
  · refine ⟨⟨h.1.length_le, fun e he => (h.1.lastUsed_le e he).trans (Nat.le_succ _)⟩, fun i => ?_⟩
    exact (h.2 i).tick
  · have hx' : Bounded config s.clock x.map ∧ Fits config s.clock x.map x.pc := by
      obtain ⟨call, -, -, rfl⟩ | ⟨order, -, hnext⟩ := access_cases hx
      · exact firstAccess_fits h.1 call
      · exact nextAccess_fits hnext h.1 (h.2 i)
    refine ⟨hx'.1, fun j => ?_⟩
    by_cases hj : j = i
    · simpa [SequenceState.after, hj] using hx'.2
    · -- the others are idle, and stay so
      have hidle : s.calls j = .idle := by
        obtain ⟨call, rfl, -⟩ | ⟨order, rfl, -⟩ := access_cases hx <;> exact hserial j hj
      simp [SequenceState.after, hj, hidle, Fits]

/-! ### The registry -/

/-- **A hit is for the model asked for, unless another model writes in the gap.** In every run
without a foreign write each hit was recorded for exactly its sequence, model and version; after
any foreign write, in whatever state, the lookup in whose gap it fell can return a worker that was
never recorded for it; and when calls do not overlap the registry never holds more than
`max_entries` entries. -/
theorem lookup_recorded (ι : Type*) [DecidableEq ι] (config : SequenceConfig) :
    (∀ s, (sequenceSystem ι config).ReachUnder (fun s a => ¬ Foreign config s a) s →
      ∀ q w, .lookup q (some w) ∈ s.answers → (⟨q, w⟩ : SequenceRecord) ∈ s.recorded) ∧
    (∀ s a s', Foreign config s a → (sequenceSystem ι config).step s a = some s' →
      ∃ b s'' q w, (sequenceSystem ι config).step s' b = some s'' ∧
        .lookup q (some w) ∈ s''.answers ∧ (⟨q, w⟩ : SequenceRecord) ∉ s''.recorded) ∧
    ∀ s, (sequenceSystem ι config).ReachUnder Serial s →
      s.map.entries.length ≤ config.maxEntries := by
  refine ⟨fun s hs => ?_, fun s a s' hforeign hstep => exists_wrong_of_foreign hforeign hstep,
    fun s hs => ?_⟩
  · have hfaithful : Faithful s := hs.invariant
      ⟨by simp [sequenceSystem, IndexMap.empty, IndexMap.get?], by simp [sequenceSystem],
        by simp [sequenceSystem]⟩
      fun s a s' hforeign hstep h => h.step hforeign hstep
    exact hfaithful.answers
  · have hcapacity : Capacity config s := hs.invariant
      ⟨⟨by simp [sequenceSystem, IndexMap.empty], by simp [sequenceSystem, IndexMap.empty]⟩,
        fun _ => trivial⟩
      fun s a s' hserial hstep h => h.step hserial hstep
    exact hcapacity.1.length_le

/-- **Another model's worker.** Sequence `s` is recorded for model `A` on worker 1; a lookup for
`A` passes its first guard; `s` is recorded for model `B` on worker 2; the lookup answers 2. -/
theorem lookup_crosses_models :
    ∃ s, (sequenceSystem Bool (.new 60 10)).Reach s ∧
      .lookup ⟨"s", "A", "1"⟩ (some 2) ∈ s.answers ∧
      (⟨⟨"s", "A", "1"⟩, 2⟩ : SequenceRecord) ∉ s.recorded := by
  have hrun : ((sequenceSystem Bool (.new 60 10)).runUnder (fun _ _ => True)
      (sequenceSystem Bool (.new 60 10)).init
      [.start true (.record ⟨⟨"s", "A", "1"⟩, 1⟩), .next true [], .next true [],
        .start false (.lookup ⟨"s", "A", "1"⟩), .start true (.record ⟨⟨"s", "B", "1"⟩, 2⟩),
        .next false []]).any
      (fun s => SequenceAnswer.lookup ⟨"s", "A", "1"⟩ (some 2) ∈ s.answers ∧
        (⟨⟨"s", "A", "1"⟩, 2⟩ : SequenceRecord) ∉ s.recorded) = true := by
    decide +kernel
  obtain ⟨s, hs, hp⟩ := StepSystem.exists_reachUnder_of_runUnder _ hrun
  exact ⟨s, hs, by simpa using hp⟩

end Worker

end LiteServer
