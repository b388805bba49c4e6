import LiteServer.Lib.FirstBest
import LiteServer.Queue.PickWorker

/-!
# Which worker is picked

`pick_worker` falls back from the preferred slot to a power-of-two or rendezvous choice and from
there to least-loaded, and every stage has its own filter. What they have in common is an order of
the slots that are not dead: first the usable ones, then the ejected or recycling ones, then the
ones that have just failed. No stage picks a slot of a worse `tier` than some other slot has.

Reading a circuit can turn it half-open, so each stage leaves another `OutlierState` behind. At
one clock reading that changes no answer: `SameReads`.

The scans keep the first of the best, so they are `List.argmax` and `List.argmin` over the slots
that pass the filter.
-/

namespace LiteServer

namespace Queue

/-! ### Reading the outlier state -/

/-- Two states that answer every query alike at `now`. -/
structure SameReads (now : ℕ) (o o' : OutlierState) : Prop where
  dead : ∀ i, o'.isDead i = o.isDead i
  recycling : ∀ i, o'.isRecycling i = o.isRecycling i
  ejected : ∀ i, (o'.isEjected now i).1 = (o.isEjected now i).1

variable {o o' : OutlierState} {now n i : ℕ} {exclude inflight : List ℕ}

theorem SameReads.refl (now : ℕ) (o : OutlierState) : SameReads now o o :=
  ⟨fun _ => rfl, fun _ => rfl, fun _ => rfl⟩

theorem SameReads.trans {o'' : OutlierState} (h : SameReads now o o')
    (h' : SameReads now o' o'') : SameReads now o o'' where
  dead := fun i => (h'.dead i).trans (h.dead i)
  recycling := fun i => (h'.recycling i).trans (h.recycling i)
  ejected := fun i => (h'.ejected i).trans (h.ejected i)

/-- The answer of `is_ejected`: an open circuit whose backoff has not expired. -/
theorem isEjected_fst (o : OutlierState) (now i : ℕ) :
    (o.isEjected now i).1 = o.workers[i]?.any fun w => w.ejected.any fun e =>
      !e.halfOpen && decide (now - e.ejectedAt < o.backoff w.ejectionSeries) := by
  unfold OutlierState.isEjected
  split
  · rename_i hw
    simp [hw]
  · rename_i w hw
    split
    · rename_i hej
      simp [hw, hej]
    · rename_i hej
      simp [hw, hej]
    · rename_i ejectedAt hej
      split <;> rename_i hexp <;> simp [hw, hej, hexp]
      omega

/-- Turning an expired circuit half-open changes no answer. -/
theorem sameReads_isEjected (o : OutlierState) (now j : ℕ) :
    SameReads now o (o.isEjected now j).2 := by
  unfold OutlierState.isEjected
  split
  · exact .refl now o
  · rename_i w hw
    split
    · exact .refl now o
    · exact .refl now o
    · rename_i ejectedAt hej
      split
      · rename_i hexp
        refine ⟨fun i => ?_, fun i => ?_, fun i => ?_⟩ <;> by_cases hij : j = i
        · subst hij
          simp [OutlierState.isDead, OutlierState.modifyWorker, hw]
        · simp [OutlierState.isDead, OutlierState.modifyWorker, hij]
        · subst hij
          simp [OutlierState.isRecycling, OutlierState.modifyWorker, hw]
        · simp [OutlierState.isRecycling, OutlierState.modifyWorker, hij]
        · subst hij
          simp [isEjected_fst, OutlierState.modifyWorker, hw, hej, hexp]
        · simp [isEjected_fst, OutlierState.modifyWorker, OutlierState.backoff, hij]
      · exact .refl now o

/-- The fallback tier of a slot that is not dead: usable, ejected or recycling, excluded. -/
def tier (o : OutlierState) (now : ℕ) (exclude : List ℕ) (i : ℕ) : ℕ :=
  if exclude.contains i then 2
  else if (o.isEjected now i).1 || o.isRecycling i then 1
  else 0

/-- Usable: not ejected, dead, recycling or excluded. -/
def usable (o : OutlierState) (now : ℕ) (exclude : List ℕ) (i : ℕ) : Bool :=
  (isLive o now exclude i).1

theorem usable_iff : usable o now exclude i = true ↔
    o.isDead i = false ∧ tier o now exclude i = 0 := by
  have h := sameReads_isEjected o now i
  simp only [usable, isLive, h.dead, h.recycling, tier]
  cases o.isDead i <;> cases (o.isEjected now i).1 <;> cases o.isRecycling i <;>
    cases exclude.contains i <;> simp

theorem SameReads.tier (h : SameReads now o o') (exclude : List ℕ) (i : ℕ) :
    tier o' now exclude i = Queue.tier o now exclude i := by
  simp only [Queue.tier, h.ejected, h.recycling]

theorem SameReads.usable (h : SameReads now o o') (exclude : List ℕ) (i : ℕ) :
    usable o' now exclude i = Queue.usable o now exclude i := by
  rw [Bool.eq_iff_iff, usable_iff, usable_iff, h.dead, h.tier]

/-- The live slots are the usable ones, whatever circuits turn half-open on the way. -/
theorem liveSlots_spec (now : ℕ) (exclude is : List ℕ) (o : OutlierState) :
    (liveSlots now exclude is o).1 = is.filter (usable o now exclude) ∧
      SameReads now o (liveSlots now exclude is o).2 := by
  induction is generalizing o with
  | nil => exact ⟨rfl, .refl now o⟩
  | cons j is ih =>
    have hsame : SameReads now o (isLive o now exclude j).2 := sameReads_isEjected o now j
    obtain ⟨hfilter, hrest⟩ := ih (isLive o now exclude j).2
    refine ⟨?_, hsame.trans hrest⟩
    have hcongr : is.filter (usable (isLive o now exclude j).2 now exclude) =
        is.filter (usable o now exclude) := by
      simp only [funext (hsame.usable exclude)]
    simp only [liveSlots, hfilter, hcongr, List.filter_cons]
    rfl

/-! ### Rendezvous -/

theorem foldl_rendezvousStep (hash : String → ℕ → ℕ) (seq : String) (is : List ℕ) :
    is.foldl (rendezvousStep hash seq) none =
      (is.argmax (hash seq)).map fun i => (hash seq i, i) := by
  induction is using List.reverseRecOn with
  | nil => rfl
  | append_singleton is j ih =>
    rw [List.foldl_append, ih, List.argmax_concat]
    cases is.argmax (hash seq) with
    | none => rfl
    | some c =>
      simp only [List.foldl_cons, List.foldl_nil, Option.map_some, rendezvousStep]
      split <;> rfl

/-- `rendezvous_pick` is the first usable slot with the greatest hash. -/
theorem rendezvousPick_spec (seq : String) (n : ℕ) (o : OutlierState) (env : PickEnv)
    (exclude : List ℕ) :
    (rendezvousPick seq n o env exclude).1 =
        ((List.range n).filter (usable o env.now exclude)).argmax (env.hash seq) ∧
      SameReads env.now o (rendezvousPick seq n o env exclude).2 := by
  obtain ⟨hlive, hsame⟩ := liveSlots_spec env.now exclude (List.range n) o
  refine ⟨?_, hsame⟩
  simp only [rendezvousPick, foldl_rendezvousStep, hlive, Option.map_map]
  exact Option.map_id'

/-- **Rendezvous routing moves only the orphaned keys.** Take two availability states, each an
outlier state read at some moment with an exclude list, such that what is usable in the second is
usable in the first. A key whose slot is still usable keeps it, for every hash and with every tie.
And in any state there is a slot for the key exactly when some slot is usable. -/
theorem rendezvous_moves_orphans_only (seq : String) (n : ℕ) (o₁ o₂ : OutlierState)
    (env₁ env₂ : PickEnv) (exclude₁ exclude₂ : List ℕ) (hhash : env₂.hash = env₁.hash)
    (hsub : ∀ i < n, usable o₂ env₂.now exclude₂ i = true →
      usable o₁ env₁.now exclude₁ i = true) :
    (∀ w, (rendezvousPick seq n o₁ env₁ exclude₁).1 = some w →
      usable o₂ env₂.now exclude₂ w = true →
      (rendezvousPick seq n o₂ env₂ exclude₂).1 = some w) ∧
    ((rendezvousPick seq n o₁ env₁ exclude₁).1 = none ↔
      ∀ i < n, usable o₁ env₁.now exclude₁ i = false) := by
  simp only [(rendezvousPick_spec seq n _ _ _).1, hhash]
  refine ⟨fun w hpick hw => ?_, ?_⟩
  · have hfilter : (List.range n).filter (usable o₂ env₂.now exclude₂) =
        ((List.range n).filter (usable o₁ env₁.now exclude₁)).filter
          (usable o₂ env₂.now exclude₂) := by
      rw [List.filter_filter]
      refine List.filter_congr fun i hi => ?_
      have himp := hsub i (List.mem_range.mp hi)
      cases h₂ : usable o₂ env₂.now exclude₂ i
      · rfl
      · simp [himp h₂]
    rw [hfilter]
    exact FirstBest.argmax_filter hpick hw
  · rw [List.argmax_eq_none, List.filter_eq_nil_iff]
    simp

/-- Slot 2 of three has died; a key of slot 1 stays there. -/
theorem rendezvous_stays_after_death :
    let env : PickEnv := ⟨0, fun _ i => (i + 1) % 3, (0, 0), fun _ => none⟩
    let o₁ := OutlierState.new 3
    let o₂ := (OutlierState.new 3).markDead 2
    (rendezvousPick "k" 3 o₁ env []).1 = some 1 ∧
      (rendezvousPick "k" 3 o₂ env []).1 = some 1 := by
  refine ⟨by decide, ?_⟩
  exact (rendezvous_moves_orphans_only "k" 3 (OutlierState.new 3)
    ((OutlierState.new 3).markDead 2) ⟨0, fun _ i => (i + 1) % 3, (0, 0), fun _ => none⟩
    ⟨0, fun _ i => (i + 1) % 3, (0, 0), fun _ => none⟩ [] [] rfl (by decide)).1 1 (by decide)
    (by decide)

/-! ### Least-loaded -/

/-- The first least-loaded slot of a list that passes a test, with its load. -/
def bestOf (load : ℕ → ℕ) (p : ℕ → Bool) (is : List ℕ) : Option (ℕ × ℕ) :=
  ((is.filter p).argmin load).map fun i => (i, load i)

section BestOf

variable {load : ℕ → ℕ} {p : ℕ → Bool} {is : List ℕ} {j w l : ℕ}

theorem bestOf_append_neg (h : p j = false) : bestOf load p (is ++ [j]) = bestOf load p is := by
  simp [bestOf, h]

theorem bestOf_append_pos (h : p j = true) :
    bestOf load p (is ++ [j]) = keepLower (bestOf load p is) j (load j) := by
  simp only [bestOf, List.filter_append, List.filter_singleton, h, cond_true, List.argmin_concat]
  cases (is.filter p).argmin load with
  | none => rfl
  | some c =>
    simp only [Option.map_some, keepLower]
    split <;> rfl

theorem bestOf_range_eq_none (h : bestOf load p (List.range n) = none) (hj : j < n) :
    p j = false := by
  have hnil : (List.range n).filter p = [] := by simpa [bestOf] using h
  simpa using List.filter_eq_nil_iff.mp hnil j (List.mem_range.mpr hj)

theorem bestOf_range_eq_some (h : bestOf load p (List.range n) = some (w, l)) :
    w < n ∧ p w = true ∧
      ∀ j < n, p j = true → load w < load j ∨ load w = load j ∧ w ≤ j := by
  obtain ⟨m, hm, hw⟩ := Option.map_eq_some_iff.mp h
  obtain ⟨rfl, -⟩ : m = w ∧ load m = l := by simpa using hw
  obtain ⟨hlt, hp⟩ := List.mem_filter.mp (List.argmin_mem hm)
  refine ⟨List.mem_range.mp hlt, hp, fun j hj hpj => ?_⟩
  have hsorted : ((List.range n).filter p).Pairwise (· < ·) :=
    List.pairwise_lt_range.sublist List.filter_sublist
  exact FirstBest.argmin_le_of_pairwise hsorted hm
    (List.mem_filter.mpr ⟨List.mem_range.mpr hj, hpj⟩)

end BestOf

/-- A slot that is not dead, of one tier. -/
def inTier (o : OutlierState) (now : ℕ) (exclude : List ℕ) (t i : ℕ) : Bool :=
  !o.isDead i && tier o now exclude i == t

/-- The scan keeps the best slot of each tier apart. -/
theorem foldl_leastLoadedStep (o : OutlierState) (now : ℕ) (exclude : List ℕ) (load : ℕ → ℕ)
    (is : List ℕ) :
    SameReads now o ((is.map fun i => (load i, i)).foldl (leastLoadedStep now exclude) ({}, o)).2 ∧
      ((is.map fun i => (load i, i)).foldl (leastLoadedStep now exclude) ({}, o)).1 =
        ⟨bestOf load (inTier o now exclude 0) is, bestOf load (inTier o now exclude 1) is,
          bestOf load (inTier o now exclude 2) is⟩ := by
  induction is using List.reverseRecOn with
  | nil => exact ⟨.refl now o, rfl⟩
  | append_singleton is j ih =>
    rw [List.map_append, List.foldl_append]
    generalize (is.map fun i => (load i, i)).foldl (leastLoadedStep now exclude) ({}, o) = r at ih ⊢
    obtain ⟨tiers, o₁⟩ := r
    obtain ⟨hsame, htiers⟩ := ih
    obtain rfl : tiers = _ := htiers
    have hnext := hsame.trans (sameReads_isEjected o₁ now j)
    simp only [List.map_cons, List.map_nil, List.foldl_cons, List.foldl_nil, leastLoadedStep]
    split
    · rename_i hdead
      rw [hsame.dead] at hdead
      have hout : ∀ t, inTier o now exclude t j = false := fun t => by simp [inTier, hdead]
      exact ⟨hsame, by simp only [bestOf_append_neg (hout _)]⟩
    · rename_i hdead
      rw [hsame.dead, Bool.not_eq_true] at hdead
      have hin : ∀ t, inTier o now exclude t j = (tier o now exclude j == t) := fun t => by
        simp [inTier, hdead]
      split
      · rename_i hex
        have ht : tier o now exclude j = 2 := by simp only [tier, hex, if_true]
        rw [bestOf_append_neg (by simp [hin, ht]), bestOf_append_neg (by simp [hin, ht]),
          bestOf_append_pos (by simp [hin, ht])]
        exact ⟨hsame, rfl⟩
      · rename_i hex
        rw [hsame.ejected, hnext.recycling]
        split
        · rename_i hej
          have ht : tier o now exclude j = 1 := by simp only [tier, hex, hej, if_true]; rfl
          rw [bestOf_append_neg (by simp [hin, ht]), bestOf_append_pos (by simp [hin, ht]),
            bestOf_append_neg (by simp [hin, ht])]
          exact ⟨hnext, rfl⟩
        · rename_i hej
          have ht : tier o now exclude j = 0 := by simp only [tier, hex, hej]; rfl
          rw [bestOf_append_pos (by simp [hin, ht]), bestOf_append_neg (by simp [hin, ht]),
            bestOf_append_neg (by simp [hin, ht])]
          exact ⟨hnext, rfl⟩

theorem zipIdx_eq_map_range (inflight : List ℕ) :
    inflight.zipIdx = (List.range inflight.length).map fun i => (inflight.getD i 0, i) := by
  refine List.ext_getElem (by simp) fun i h _ => ?_
  have hi : i < inflight.length := by simpa using h
  simp [hi]

/-- A choice among the slots that are not dead that no other such slot beats by its tier. -/
structure Fit (o : OutlierState) (now : ℕ) (exclude : List ℕ) (n w : ℕ) : Prop where
  lt : w < n
  alive : o.isDead w = false
  tier : ∀ j < n, o.isDead j = false → tier o now exclude w ≤ tier o now exclude j

theorem SameReads.fit {w : ℕ} (h : SameReads now o o') (hfit : Fit o' now exclude n w) :
    Fit o now exclude n w where
  lt := hfit.lt
  alive := h.dead w ▸ hfit.alive
  tier := fun j hj hdead => by
    have hle := hfit.tier j hj ((h.dead j).trans hdead)
    rwa [h.tier, h.tier] at hle

theorem fit_of_usable {w : ℕ} (hlt : w < n) (h : usable o now exclude w = true) :
    Fit o now exclude n w where
  lt := hlt
  alive := (usable_iff.mp h).1
  tier := fun _ _ _ => (usable_iff.mp h).2 ▸ Nat.zero_le _

/-- The lowest-index least-loaded slot of the best tier. -/
structure LeastLoaded (o : OutlierState) (now : ℕ) (exclude inflight : List ℕ) (w : ℕ) : Prop
    extends Fit o now exclude inflight.length w where
  least : ∀ j < inflight.length, o.isDead j = false →
    Queue.tier o now exclude j = Queue.tier o now exclude w →
    inflight.getD w 0 < inflight.getD j 0 ∨ inflight.getD w 0 = inflight.getD j 0 ∧ w ≤ j

theorem leastLoaded_of_bestOf {t w l : ℕ}
    (hbelow : ∀ j < inflight.length, o.isDead j = false → t ≤ tier o now exclude j)
    (h : bestOf (inflight.getD · 0) (inTier o now exclude t) (List.range inflight.length) =
      some (w, l)) : LeastLoaded o now exclude inflight w := by
  obtain ⟨hlt, hin, hleast⟩ := bestOf_range_eq_some h
  obtain ⟨halive, ht⟩ : o.isDead w = false ∧ tier o now exclude w = t := by simpa [inTier] using hin
  refine ⟨⟨hlt, halive, fun j hj hdead => ht ▸ hbelow j hj hdead⟩, fun j hj hdead htj => ?_⟩
  exact hleast j hj (by simp [inTier, hdead, htj, ht])

theorem leastLoaded_pickWorkerLeastLoaded (now : ℕ) (exclude : List ℕ)
    (hlive : ∃ i < inflight.length, o.isDead i = false) :
    LeastLoaded o now exclude inflight (pickWorkerLeastLoaded inflight o now exclude).1 := by
  obtain ⟨i, hi, halive⟩ := hlive
  rw [pickWorkerLeastLoaded]
  split
  · rename_i hone
    have hzero : ∀ j < inflight.length, j = 0 := fun j hj => by omega
    obtain rfl := hzero i hi
    refine ⟨⟨hi, halive, fun j hj _ => ?_⟩, fun j hj _ _ => ?_⟩
    · rw [hzero j hj]
    · exact .inr (by rw [hzero j hj]; exact ⟨rfl, le_refl _⟩)
  · obtain ⟨-, htiers⟩ := foldl_leastLoadedStep o now exclude (inflight.getD · 0)
      (List.range inflight.length)
    rw [← zipIdx_eq_map_range] at htiers
    have habove : ∀ t, bestOf (inflight.getD · 0) (inTier o now exclude t)
        (List.range inflight.length) = none → (∀ j < inflight.length, o.isDead j = false →
          t ≤ tier o now exclude j) → ∀ j < inflight.length, o.isDead j = false →
          t + 1 ≤ tier o now exclude j := by
      intro t hnone hle j hj hdead
      have hne : tier o now exclude j ≠ t := by
        simpa [inTier, hdead] using bestOf_range_eq_none hnone hj
      have := hle j hj hdead
      omega
    simp only [htiers]
    -- the first tier with a slot in it
    cases h₀ : bestOf (inflight.getD · 0) (inTier o now exclude 0) (List.range inflight.length) with
    | some q => exact leastLoaded_of_bestOf (fun _ _ _ => Nat.zero_le _) h₀
    | none =>
      have hle₁ := habove 0 h₀ fun _ _ _ => Nat.zero_le _
      cases h₁ : bestOf (inflight.getD · 0) (inTier o now exclude 1)
          (List.range inflight.length) with
      | some q => exact leastLoaded_of_bestOf hle₁ h₁
      | none =>
        have hle₂ := habove 1 h₁ hle₁
        cases h₂ : bestOf (inflight.getD · 0) (inTier o now exclude 2)
            (List.range inflight.length) with
        | some q => exact leastLoaded_of_bestOf hle₂ h₂
        | none =>
          have hle₃ := habove 2 h₂ hle₂ i hi halive
          have htwo : tier o now exclude i ≤ 2 := by
            unfold tier
            split
            · exact le_refl _
            · split <;> omega
          omega

/-! ### The picked worker -/

theorem fit_powerOfTwoPick (env : PickEnv) (exclude : List ℕ)
    (hlive : ∃ i < inflight.length, o.isDead i = false) :
    Fit o env.now exclude inflight.length (powerOfTwoPick inflight o env exclude).1 := by
  obtain ⟨hfilter, hsame⟩ := liveSlots_spec env.now exclude (List.range inflight.length) o
  simp only [powerOfTwoPick]
  generalize liveSlots env.now exclude (List.range inflight.length) o = r at hfilter hsame ⊢
  have hfit : ∀ i ∈ r.1, Fit o env.now exclude inflight.length i := by
    intro i hi
    rw [hfilter, List.mem_filter, List.mem_range] at hi
    exact fit_of_usable hi.1 hi.2
  have hread : ∀ {l : List ℕ} (k : ℕ), l ≠ [] → (∀ i ∈ l, i ∈ r.1) →
      Fit o env.now exclude inflight.length (l.getD (k % l.length) 0) := by
    intro l k hne hl
    have hk : k % l.length < l.length := Nat.mod_lt _ (List.length_pos_iff.mpr hne)
    rw [List.getD_eq_getElem _ _ hk]
    exact hfit _ (hl _ (List.getElem_mem hk))
  split
  · refine hsame.fit (leastLoaded_pickWorkerLeastLoaded env.now exclude ?_).toFit
    obtain ⟨i, hi, halive⟩ := hlive
    exact ⟨i, hi, (hsame.dead i).trans halive⟩
  · rename_i hlen
    have hne : r.1 ≠ [] := by
      intro h
      simp [h] at hlen
    split
    · exact hread _ hne fun _ hi => hi
    · -- the slots are distinct, so there is a second one
      refine hread _ ?_ fun i hi => List.mem_of_mem_filter hi
      have hnodup : r.1.Nodup := hfilter ▸ List.nodup_range.filter _
      have hk := Nat.mod_lt env.draws.1 (List.length_pos_iff.mpr hne)
      have hmem : r.1.getD (env.draws.1 % r.1.length) 0 ∈ r.1 := by
        rw [List.getD_eq_getElem _ _ hk]
        exact List.getElem_mem hk
      have herase := List.length_erase_of_mem hmem
      intro hnil
      rw [hnodup.erase_eq_filter, List.filter_eq_nil_iff.mpr (by simpa using hnil)] at herase
      simp only [List.length_nil] at herase
      omega

theorem fit_rendezvous (seq : String) (env : PickEnv) (exclude : List ℕ)
    (hlive : ∃ i < inflight.length, o.isDead i = false) :
    Fit o env.now exclude inflight.length
      (match rendezvousPick seq inflight.length o env exclude with
        | (some i, o) => (i, o)
        | (none, o) => pickWorkerLeastLoaded inflight o env.now exclude).1 := by
  obtain ⟨hpick, hsame⟩ := rendezvousPick_spec seq inflight.length o env exclude
  split
  · rename_i w o' h
    rw [h] at hpick
    obtain ⟨hlt, husable⟩ := List.mem_filter.mp (List.argmax_mem hpick.symm)
    exact fit_of_usable (List.mem_range.mp hlt) husable
  · rename_i o' h
    rw [h] at hsame
    refine hsame.fit (leastLoaded_pickWorkerLeastLoaded env.now exclude ?_).toFit
    obtain ⟨i, hi, halive⟩ := hlive
    exact ⟨i, hi, (hsame.dead i).trans halive⟩

theorem sameReads_affinityOverloaded (inflight : List ℕ) (o : OutlierState) (now : ℕ)
    (exclude : List ℕ) (w : ℕ) (balance : BalanceConfig) :
    SameReads now o (affinityOverloaded inflight o now exclude w balance).2 := by
  have hsame := (liveSlots_spec now exclude ((List.range inflight.length).filter (· ≠ w)) o).2
  simp only [affinityOverloaded]
  split <;> exact hsame

theorem fit_pickWorker (env : PickEnv) (exclude : List ℕ) (affinity : Option Affinity)
    (balance : BalanceConfig) (hlive : ∃ i < inflight.length, o.isDead i = false) :
    Fit o env.now exclude inflight.length
      (pickWorker inflight o env exclude affinity balance).1 := by
  have hlive' : ∀ {o'}, SameReads env.now o o' → ∃ i < inflight.length, o'.isDead i = false :=
    fun hsame => hlive.imp fun i h => ⟨h.1, (hsame.dead i).trans h.2⟩
  cases affinity with
  | none => exact (leastLoaded_pickWorkerLeastLoaded env.now exclude hlive).toFit
  | some a =>
    obtain ⟨seq, preferred⟩ := a
    simp only [pickWorker]
    split
    · -- the one slot there is
      obtain ⟨i, hi, halive⟩ := hlive
      obtain rfl : i = 0 := by omega
      exact ⟨hi, halive, fun j hj _ => by rw [show j = 0 by omega]⟩
    · cases preferred with
      | none => exact fit_rendezvous seq env exclude hlive
      | some w =>
        have hsame : SameReads env.now o (isLive o env.now exclude w).2 :=
          sameReads_isEjected o env.now w
        simp only
        split
        · rename_i hw
          split
          · rename_i o₁ h₁
            obtain rfl : (isLive o env.now exclude w).2 = o₁ := congrArg Prod.snd h₁
            split
            · rename_i o₂ h₂
              have hsame₂ := hsame.trans (sameReads_affinityOverloaded inflight _ env.now exclude w
                balance)
              rw [h₂] at hsame₂
              exact hsame₂.fit (fit_powerOfTwoPick env exclude (hlive' hsame₂))
            · exact fit_of_usable hw (congrArg Prod.fst h₁)
          · rename_i o₁ h₁
            obtain rfl : (isLive o env.now exclude w).2 = o₁ := congrArg Prod.snd h₁
            exact hsame.fit (fit_rendezvous seq env exclude (hlive' hsame))
        · exact fit_rendezvous seq env exclude hlive

/-- **The worker a request goes to.** While some slot is not dead, `pick_worker` returns a slot in
range that is not dead. It returns an excluded slot only if every slot that is not dead is
excluded, and an ejected or recycling one only if no slot is free of all four marks. Without an
affinity it is the lowest-index least-loaded slot of the best tier there is. All this for every
load, outlier state, exclude list, affinity, threshold and random draw. -/
theorem pickWorker_choice (inflight : List ℕ) (o : OutlierState) (env : PickEnv)
    (exclude : List ℕ) (affinity : Option Affinity) (balance : BalanceConfig)
    (hlive : ∃ i < inflight.length, o.isDead i = false) :
    let w := (pickWorker inflight o env exclude affinity balance).1
    w < inflight.length ∧ o.isDead w = false ∧
      (w ∈ exclude → ∀ j < inflight.length, o.isDead j = false → j ∈ exclude) ∧
      ((o.isEjected env.now w).1 = true ∨ o.isRecycling w = true → ∀ j < inflight.length,
        ¬ (o.isDead j = false ∧ j ∉ exclude ∧ (o.isEjected env.now j).1 = false ∧
          o.isRecycling j = false)) ∧
      (affinity = none → LeastLoaded o env.now exclude inflight w) := by
  have hfit := fit_pickWorker env exclude affinity balance hlive
  refine ⟨hfit.lt, hfit.alive, fun hex j hj hdead => ?_, fun hmark j hj hfree => ?_, ?_⟩
  · have hle := hfit.tier j hj hdead
    by_contra hnot
    have ht : tier o env.now exclude j ≤ 1 := by
      simp only [tier, List.contains_iff_mem, hnot, if_false]
      split <;> omega
    have htw : tier o env.now exclude
        (pickWorker inflight o env exclude affinity balance).1 = 2 := by simp [tier, hex]
    omega
  · have hle := hfit.tier j hj hfree.1
    have ht : tier o env.now exclude j = 0 := by simp [tier, hfree]
    have htw : 0 < tier o env.now exclude
        (pickWorker inflight o env exclude affinity balance).1 := by
      unfold tier
      split
      · exact Nat.two_pos
      · rw [if_pos (by simpa using hmark)]
        exact Nat.one_pos
    omega
  · rintro rfl
    exact leastLoaded_pickWorkerLeastLoaded env.now exclude hlive

/-- Of three slots the least-loaded one is dead and the next one excluded: without an affinity
slot 2 is picked. -/
theorem pickWorker_choice_three :
    let env : PickEnv := ⟨0, fun _ i => i, (0, 0), fun _ => none⟩
    let o := (OutlierState.new 3).markDead 0
    (pickWorker [0, 1, 5] o env [1] none ⟨0, fun _ _ => false⟩).1 = 2 ∧
      LeastLoaded o 0 [1] [0, 1, 5] 2 := by
  refine ⟨by decide, ?_⟩
  exact (pickWorker_choice [0, 1, 5] ((OutlierState.new 3).markDead 0)
    ⟨0, fun _ i => i, (0, 0), fun _ => none⟩ [1] none ⟨0, fun _ _ => false⟩
    ⟨1, by decide, by decide⟩).2.2.2.2 rfl

end Queue

end LiteServer
