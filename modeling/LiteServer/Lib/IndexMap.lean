import LiteServer.Lib.Checks
import LiteServer.Lib.Lookup

/-!
# Maps with an iteration order

A finite map together with the order a walk over it meets its entries. Inserting a new key appends
it; inserting a known key replaces its value and keeps its place. The distinctness of the keys is a
field, so a map with two values for a key cannot be built.

A hash map is the same object read differently: its order is some order, about which a client may
assume nothing. A statement about every `IndexMap` is therefore a statement about every hash map
and every iteration order of it. Where code walks a hash set it built itself, the order is an
`IterOrder`: any reordering, a fresh one for every walk.
-/

namespace LiteServer

/-- A map with distinct keys, in iteration order. -/
structure IndexMap (κ β : Type*) where
  /-- The entries, in iteration order. -/
  entries : List (κ × β)
  nodup : (entries.map Prod.fst).Nodup

namespace IndexMap

variable {κ β : Type*}

instance [DecidableEq κ] [DecidableEq β] : DecidableEq (IndexMap κ β) := fun m m' =>
  decidable_of_iff (m.entries = m'.entries) <| by
    cases m
    cases m'
    simp

/-- No entries. -/
def empty : IndexMap κ β := ⟨[], List.nodup_nil⟩

/-- The keys in order. -/
def keys (m : IndexMap κ β) : List κ := m.entries.map Prod.fst

/-- The values in order. -/
def values (m : IndexMap κ β) : List β := m.entries.map Prod.snd

/-- There is no entry. -/
def isEmpty (m : IndexMap κ β) : Bool := m.entries.isEmpty

variable {k : κ} {b : β}

theorem mem_keys_of_mem {m : IndexMap κ β} (h : (k, b) ∈ m.entries) : k ∈ m.keys :=
  List.mem_map.mpr ⟨(k, b), h, rfl⟩

/-- A key has one value. -/
theorem eq_of_mem {m : IndexMap κ β} {b' : β} (h : (k, b) ∈ m.entries) (h' : (k, b') ∈ m.entries) :
    b = b' :=
  (Prod.mk.inj (List.inj_on_of_nodup_map m.nodup h h' rfl)).2

/-- Apply a function to every value. -/
def mapValues {γ : Type*} (f : β → γ) (m : IndexMap κ β) : IndexMap κ γ :=
  ⟨m.entries.map fun e => (e.1, f e.2), by
    rw [List.map_map]
    exact m.nodup⟩

variable {γ : Type*}

variable {ε : Type*}

private theorem map_fst_of_mapM {κ β γ : Type} {f : κ → β → Except ε γ} {l : List (κ × β)}
    {l' : List (κ × γ)} (h : l.mapM (fun e => (e.1, ·) <$> f e.1 e.2) = .ok l') :
    l'.map Prod.fst = l.map Prod.fst := by
  rw [Checks.mapM_eq_ok] at h
  induction h with
  | nil => rfl
  | cons hab _ ih =>
    obtain ⟨c, -, rfl⟩ := Checks.map_eq_ok.mp hab
    simp [ih]

/-- A fallible map over the values, in iteration order. -/
def traverse {ε : Type*} {κ β γ : Type} (f : κ → β → Except ε γ) (m : IndexMap κ β) :
    Except ε (IndexMap κ γ) :=
  match h : m.entries.mapM (fun e => (e.1, ·) <$> f e.1 e.2) with
  | .ok entries => .ok ⟨entries, map_fst_of_mapM h ▸ m.nodup⟩
  | .error e => .error e

theorem mem_of_traverse {κ β γ : Type} {f : κ → β → Except ε γ} {m : IndexMap κ β}
    {m' : IndexMap κ γ} (h : m.traverse f = .ok m') {k : κ} {c : γ} (hc : (k, c) ∈ m'.entries) :
    ∃ b, (k, b) ∈ m.entries ∧ f k b = .ok c := by
  rw [traverse] at h
  split at h
  · rename_i entries hentries
    obtain rfl := Except.ok.inj h
    obtain ⟨e, he, hec⟩ := Checks.mem_of_mapM hentries hc
    obtain ⟨c', hc', heq⟩ := Checks.map_eq_ok.mp hec
    obtain ⟨rfl, rfl⟩ := Prod.mk.inj heq
    exact ⟨e.2, he, hc'⟩
  · exact absurd h (by simp)

theorem traverse_eq_ok {κ β γ : Type} {f : κ → β → Except ε γ} {m : IndexMap κ β}
    {m' : IndexMap κ γ} :
    m.traverse f = .ok m' ↔
      List.Forall₂ (fun e e' => e'.1 = e.1 ∧ f e.1 e.2 = .ok e'.2) m.entries m'.entries := by
  have hentry (e : κ × β) (e' : κ × γ) :
      (e.1, ·) <$> f e.1 e.2 = .ok e' ↔ e'.1 = e.1 ∧ f e.1 e.2 = .ok e'.2 := by
    rw [Checks.map_eq_ok]
    constructor
    · rintro ⟨c, hc, rfl⟩
      exact ⟨rfl, hc⟩
    · rintro ⟨hkey, hc⟩
      exact ⟨e'.2, hc, by rw [← hkey]⟩
  simp only [← hentry, ← Checks.mapM_eq_ok]
  rw [traverse]
  split
  · rename_i entries hentries
    refine ⟨fun h => ?_, fun h => ?_⟩
    · rw [← Except.ok.inj h]
      exact hentries
    · obtain rfl := Except.ok.inj (hentries.symm.trans h)
      rfl
  · rename_i e herror
    rw [herror]
    exact ⟨fun h => absurd h (by simp), fun h => absurd h (by simp)⟩

/-- Keep the entries that satisfy a predicate. -/
def retain (m : IndexMap κ β) (p : κ → β → Bool) : IndexMap κ β :=
  ⟨m.entries.filter fun e => p e.1 e.2, m.nodup.sublist (List.filter_sublist.map _)⟩

variable {e : κ × β}

theorem mem_retain {m : IndexMap κ β} {p : κ → β → Bool} :
    e ∈ (m.retain p).entries ↔ e ∈ m.entries ∧ p e.1 e.2 = true :=
  List.mem_filter

variable [DecidableEq κ]

/-- The value of a key. -/
def get? (m : IndexMap κ β) (k : κ) : Option β := m.entries.lookup k

/-- There is a value of the key. -/
def contains (m : IndexMap κ β) (k : κ) : Bool := k ∈ m.keys

/-- Put a value under a key: in place of the old one, or at the end. -/
def insert (m : IndexMap κ β) (k : κ) (b : β) : IndexMap κ β :=
  if h : k ∈ m.keys then
    ⟨m.entries.map fun e => if e.1 = k then (k, b) else e, by
      have hkeys : (m.entries.map fun e => if e.1 = k then (k, b) else e).map Prod.fst =
          m.entries.map Prod.fst := by
        rw [List.map_map]
        refine List.map_congr_left fun e _ => ?_
        by_cases he : e.1 = k <;> simp [he]
      rw [hkeys]
      exact m.nodup⟩
  else
    ⟨m.entries ++ [(k, b)], by
      rw [List.map_append, List.nodup_append]
      refine ⟨m.nodup, List.nodup_singleton _, ?_⟩
      rintro a ha c hc rfl
      obtain rfl : a = k := by simpa using hc
      exact h ha⟩

theorem mem_keys_insert {m : IndexMap κ β} {k' : κ} :
    k' ∈ (m.insert k b).keys ↔ k' = k ∨ k' ∈ m.keys := by
  by_cases h : k ∈ m.keys
  · have hkeys : (m.insert k b).keys = m.keys := by
      rw [insert, dif_pos h, keys, keys, List.map_map]
      refine List.map_congr_left fun e _ => ?_
      by_cases he : e.1 = k <;> simp [he]
    rw [hkeys]
    exact ⟨.inr, fun hk => hk.elim (fun heq => heq ▸ h) id⟩
  · rw [insert, dif_neg h, keys, List.map_append, List.mem_append, or_comm]
    simp [keys]

theorem mem_of_mem_insert {m : IndexMap κ β} (he : e ∈ (m.insert k b).entries) :
    e = (k, b) ∨ e ∈ m.entries := by
  by_cases h : k ∈ m.keys
  · rw [insert, dif_pos h] at he
    obtain ⟨e', he', rfl⟩ := List.mem_map.mp he
    split
    · exact .inl rfl
    · exact .inr he'
  · rw [insert, dif_neg h, List.mem_append, List.mem_singleton] at he
    exact he.symm

theorem mem_of_get? {m : IndexMap κ β} (h : m.get? k = some b) : (k, b) ∈ m.entries :=
  mem_of_lookup h

theorem mem_keys_of_get? {m : IndexMap κ β} (h : m.get? k = some b) : k ∈ m.keys :=
  mem_keys_of_mem (mem_of_get? h)

theorem get?_eq_some_iff {m : IndexMap κ β} : m.get? k = some b ↔ (k, b) ∈ m.entries :=
  ⟨mem_of_get?, lookup_of_mem m.nodup⟩

theorem mem_insert {m : IndexMap κ β} :
    e ∈ (m.insert k b).entries ↔ e = (k, b) ∨ e ∈ m.entries ∧ e.1 ≠ k := by
  by_cases h : k ∈ m.keys
  · rw [insert, dif_pos h, List.mem_map]
    constructor
    · rintro ⟨e', he', rfl⟩
      split
      · exact .inl rfl
      · exact .inr ⟨he', ‹_›⟩
    · rintro (rfl | ⟨he, hne⟩)
      · obtain ⟨e', he', rfl⟩ := List.mem_map.mp h
        exact ⟨e', he', if_pos rfl⟩
      · exact ⟨e, he, if_neg hne⟩
  · rw [insert, dif_neg h, List.mem_append, List.mem_singleton, or_comm]
    refine or_congr_right (and_iff_left_of_imp fun he hk => h ?_).symm
    exact hk ▸ mem_keys_of_mem he

@[simp] theorem get?_insert (m : IndexMap κ β) (k k' : κ) (b : β) :
    (m.insert k b).get? k' = if k' = k then some b else m.get? k' := by
  refine Option.ext fun b' => ?_
  rw [get?_eq_some_iff, mem_insert, Prod.mk.injEq]
  by_cases hk : k' = k
  · simp [hk, eq_comm]
  · simp [hk, get?_eq_some_iff]

theorem get?_eq_none_iff {m : IndexMap κ β} : m.get? k = none ↔ k ∉ m.keys := by
  refine ⟨fun h hmem => ?_, fun h => ?_⟩
  · obtain ⟨e, he, rfl⟩ := List.mem_map.mp hmem
    exact absurd (get?_eq_some_iff.mpr he) (by simp [h])
  · cases hget : m.get? k with
    | none => rfl
    | some b => exact absurd (mem_keys_of_get? hget) h

theorem entries_insert_of_notMem {m : IndexMap κ β} (h : k ∉ m.keys) (b : β) :
    (m.insert k b).entries = m.entries ++ [(k, b)] := by
  rw [insert, dif_neg h]

theorem length_insert (m : IndexMap κ β) (k : κ) (b : β) :
    (m.insert k b).entries.length =
      if k ∈ m.keys then m.entries.length else m.entries.length + 1 := by
  unfold insert
  split_ifs <;> simp

/-- Remove a key. -/
def erase (m : IndexMap κ β) (k : κ) : IndexMap κ β := m.retain fun k' _ => k' ≠ k

theorem mem_erase {m : IndexMap κ β} : e ∈ (m.erase k).entries ↔ e ∈ m.entries ∧ e.1 ≠ k := by
  simp [erase, mem_retain]

theorem length_erase_lt {m : IndexMap κ β} (h : k ∈ m.keys) :
    (m.erase k).entries.length < m.entries.length := by
  obtain ⟨e, he, rfl⟩ := List.mem_map.mp h
  exact List.length_filter_lt_length_iff_exists.mpr ⟨e, he, by simp⟩

@[simp] theorem get?_erase (m : IndexMap κ β) (k k' : κ) :
    (m.erase k).get? k' = if k' = k then none else m.get? k' := by
  refine Option.ext fun b => ?_
  rw [get?_eq_some_iff, mem_erase]
  by_cases hk : k' = k
  · simp [hk]
  · simp [hk, get?_eq_some_iff]

theorem erase_insert (m : IndexMap κ β) (k : κ) (b : β) : (m.insert k b).erase k = m.erase k := by
  have hentries : ((m.insert k b).erase k).entries = (m.erase k).entries := by
    by_cases h : k ∈ m.keys
    · have hcomp : ∀ l : List (κ × β),
          (l.map fun e => if e.1 = k then (k, b) else e).filter (fun e => decide (e.1 ≠ k)) =
            l.filter fun e => decide (e.1 ≠ k) := by
        intro l
        induction l with
        | nil => rfl
        | cons e l ih =>
          by_cases he : e.1 = k
          · simpa [he] using ih
          · simpa [he] using ih
      simp only [erase, retain, insert, dif_pos h]
      exact hcomp m.entries
    · simp [erase, retain, entries_insert_of_notMem h]
  cases h₁ : (m.insert k b).erase k
  cases h₂ : m.erase k
  simpa [h₁, h₂] using hentries

end IndexMap

/-- The iteration orders of the hash sets of a run: the `k`-th walk meets the elements of its set
in some order. -/
structure IterOrder (α : Type*) where
  iter : ℕ → List α → List α
  perm : ∀ k l, (iter k l).Perm l

/-- Walk every set in the order its elements are listed in. -/
def IterOrder.listed {α : Type*} : IterOrder α := ⟨fun _ l => l, fun _ _ => .refl _⟩

end LiteServer
