import LiteServer.Lib.IndexMap
import Mathlib.Data.Finset.Card
import Mathlib.Data.List.Perm.Subperm
import Mathlib.Logic.Relation
import Mathlib.Order.Bounds.Defs

/-!
# Kahn's algorithm

Two loops over a dependency graph, both driven by the in-degrees of its nodes: the number of
dependencies a node still waits for. `visit` pops ready nodes off a stack and counts how many it
pops; a graph with a cycle leaves some unpopped. `peel` removes all ready nodes at once, round by
round, and returns the rounds as layers.

Counters are machine integers in the programs this models, so `countDown` fails where a counter
would go below zero; that it never does is part of what is proved.

## Main results

* `Graph.acyclic_iff` — a graph has a rank exactly when no node depends on itself through others
* `visit_spec` — `visit` ends without a counter below zero on every graph, and pops every node
  exactly when the graph has a rank
* `peel_spec` — on a ranked graph `peel` returns layers that list every node once and put every
  dependency of a node into an earlier layer, whatever the iteration orders
* `Peeled.isGreatest` — the layer of a node is the length of the longest path below it
-/

namespace LiteServer

namespace Kahn

variable {ν : Type*}

/-- A dependency graph: each node with the nodes it depends on, none of them twice. -/
structure Graph (ν : Type*) where
  nodes : List ν
  deps : ν → List ν
  nodup : nodes.Nodup
  deps_nodup : ∀ v, (deps v).Nodup

/-- Some numbering of the nodes increases along every dependency. -/
def Graph.Acyclic (g : Graph ν) : Prop :=
  ∃ rank : ν → ℕ, ∀ v ∈ g.nodes, ∀ u ∈ g.deps v, rank u < rank v

/-- Every dependency is a node. -/
def Graph.Closed (g : Graph ν) : Prop := ∀ v ∈ g.nodes, ∀ u ∈ g.deps v, u ∈ g.nodes

/-- `v` depends on `u`. -/
def Graph.Dep (g : Graph ν) (v u : ν) : Prop := u ∈ g.deps v

theorem Graph.Closed.mem_of_transGen {g : Graph ν} (hg : g.Closed) {v u : ν} (hv : v ∈ g.nodes)
    (h : Relation.TransGen g.Dep v u) : u ∈ g.nodes := by
  induction h with
  | single hu => exact hg v hv _ hu
  | tail _ hu ih => exact hg _ ih _ hu

open Classical in
/-- **A graph has a rank exactly when it has no cycle.** The number of nodes below a node is one. -/
theorem Graph.acyclic_iff {g : Graph ν} (hg : g.Closed) :
    g.Acyclic ↔ ∀ v ∈ g.nodes, ¬ Relation.TransGen g.Dep v v := by
  constructor
  · rintro ⟨rank, hrank⟩ v hv hcycle
    have hlt : ∀ u, Relation.TransGen g.Dep v u → rank u < rank v := by
      intro u hu
      induction hu with
      | single hu => exact hrank v hv _ hu
      | tail hpath hu ih =>
        exact Nat.lt_trans (hrank _ (hg.mem_of_transGen hv hpath) _ hu) ih
    exact Nat.lt_irrefl _ (hlt v hcycle)
  · intro hcycle
    refine ⟨fun v => (g.nodes.toFinset.filter (Relation.TransGen g.Dep v ·)).card,
      fun v hv u hu => Finset.card_lt_card ?_⟩
    have hun : u ∈ g.nodes := hg v hv u hu
    refine (Finset.ssubset_iff_of_subset fun w hw => ?_).mpr ⟨u, ?_, fun hu' => ?_⟩
    · obtain ⟨hwn, hw⟩ := Finset.mem_filter.mp hw
      exact Finset.mem_filter.mpr ⟨hwn, .head hu hw⟩
    · exact Finset.mem_filter.mpr ⟨List.mem_toFinset.mpr hun, .single hu⟩
    · exact hcycle u hun (Finset.mem_filter.mp hu').2

variable [DecidableEq ν] (g : Graph ν)

/-- The number of dependencies of a node. -/
def inDegree (v : ν) : ℕ := (g.deps v).length

/-- `u` is done: every node of the list that depends on it waits for one dependency less, and those
that wait for none any more are pushed. `none` is a counter below zero. -/
def countDown (u : ν) : List ν → (ν → ℕ) → List ν → Option ((ν → ℕ) × List ν)
  | [], deg, stack => some (deg, stack)
  | v :: vs, deg, stack =>
    if u ∈ g.deps v then
      match deg v with
      | 0 => none
      | d + 1 => countDown u vs (Function.update deg v d) (if d = 0 then v :: stack else stack)
    else countDown u vs deg stack

/-- Pop ready nodes until there are none, and count them. `none` is a counter below zero, or a
stack that is not empty after as many pops as there were nodes. -/
def visit : ℕ → (ν → ℕ) → List ν → ℕ → Option ℕ
  | _, _, [], visited => some visited
  | 0, _, _ :: _, _ => none
  | fuel + 1, deg, u :: stack, visited =>
    (countDown g u g.nodes deg stack).bind fun next => visit fuel next.1 next.2 (visited + 1)

/-- Take `u` out of the remaining nodes, and let the others wait for one dependency less. -/
def peelNode (s : List ν × (ν → ℕ)) (u : ν) : Option (List ν × (ν → ℕ)) :=
  (countDown g u (s.1.erase u) s.2 []).map fun next => (s.1.erase u, next.1)

/-- Take out all ready nodes at once, round by round. A round that finds none ends the loop. -/
def peel (order : IterOrder ν) : ℕ → ℕ → List ν → (ν → ℕ) → Option (List (List ν))
  | _, _, [], _ => some []
  | 0, _, _ :: _, _ => none
  | fuel + 1, round, remaining, deg =>
    let layer := (order.iter round remaining).filter fun v => deg v = 0
    if layer.isEmpty then some []
    else (layer.foldlM (peelNode g) (remaining, deg)).bind fun next =>
      (peel order fuel (round + 1) next.1 next.2).map (layer :: ·)

variable {g}

/-! ### Counting down -/

theorem countDown_eq {u : ν} {vs : List ν} (hvs : vs.Nodup) :
    ∀ {deg : ν → ℕ} {stack : List ν}, (∀ v ∈ vs, u ∈ g.deps v → 0 < deg v) →
      countDown g u vs deg stack =
        some (fun v => if v ∈ vs ∧ u ∈ g.deps v then deg v - 1 else deg v,
          (vs.filter fun v => u ∈ g.deps v ∧ deg v = 1).reverse ++ stack) := by
  induction vs with
  | nil =>
    simp [countDown]
  | cons v vs ih =>
    intro deg stack hpos
    obtain ⟨hv, hvs⟩ := List.nodup_cons.mp hvs
    rw [countDown]
    by_cases hu : u ∈ g.deps v
    · obtain ⟨d, hd⟩ := Nat.exists_eq_succ_of_ne_zero
        (Nat.pos_iff_ne_zero.mp (hpos v List.mem_cons_self hu))
      have hne : ∀ w ∈ vs, w ≠ v := fun w hw h => hv (h ▸ hw)
      have hpos' : ∀ w ∈ vs, u ∈ g.deps w → 0 < Function.update deg v d w := by
        intro w hw hwu
        rw [Function.update_of_ne (hne w hw)]
        exact hpos w (List.mem_cons_of_mem v hw) hwu
      simp only [hu, hd, if_true]
      rw [ih hvs hpos']
      have hstack : (vs.filter fun w => u ∈ g.deps w ∧ Function.update deg v d w = 1) =
          vs.filter fun w => u ∈ g.deps w ∧ deg w = 1 := by
        refine List.filter_congr fun w hw => ?_
        rw [Function.update_of_ne (hne w hw)]
      rw [hstack]
      congr 1
      refine Prod.ext (funext fun w => ?_) ?_
      · by_cases hw : w = v
        · subst hw
          simp [hv, hu, hd]
        · simp [hw]
      · by_cases hd0 : d = 0 <;> simp [hu, hd, hd0]
    · simp only [hu, if_false]
      rw [ih hvs fun w hw => hpos w (List.mem_cons_of_mem v hw)]
      congr 1
      refine Prod.ext (funext fun w => ?_) (by simp [hu])
      by_cases hw : w = v
      · subst hw
        simp [hu]
      · simp [hw]

variable {l : List ν}

/-- Dropping one element from what is counted lowers the count of a list by one if it is in the
list. -/
theorem length_filter_drop (hl : l.Nodup) {p q : ν → Prop} [DecidablePred p] [DecidablePred q]
    {u : ν} (hq : ∀ w, q w ↔ p w ∧ w ≠ u) (hu : p u) :
    (l.filter (q ·)).length =
      if u ∈ l then (l.filter (p ·)).length - 1 else (l.filter (p ·)).length := by
  have hfilter : l.filter (q ·) = (l.filter (p ·)).erase u := by
    rw [(hl.filter _).erase_eq_filter, List.filter_filter]
    refine List.filter_congr fun w _ => ?_
    rw [Bool.eq_iff_iff]
    simp [hq, and_comm]
  rw [hfilter, List.length_erase]
  simp [hu]

/-! ### Visiting -/

variable (g) in
/-- Every dependency of a listed node is listed behind it. -/
inductive Settled : List ν → Prop
  | nil : Settled []
  | cons {v : ν} {l : List ν} : (∀ u ∈ g.deps v, u ∈ l) → Settled l → Settled (v :: l)

omit [DecidableEq ν] in
theorem Settled.mem_of_mem (h : Settled g l) {v u : ν} (hv : v ∈ l) (hu : u ∈ g.deps v) :
    u ∈ l := by
  induction h with
  | nil => exact absurd hv List.not_mem_nil
  | cons hw _ ih =>
    rcases List.mem_cons.mp hv with rfl | hv
    · exact List.mem_cons_of_mem _ (hw u hu)
    · exact List.mem_cons_of_mem _ (ih hv)

theorem Settled.idxOf_lt (h : Settled g l) (hl : l.Nodup) {v u : ν} (hv : v ∈ l)
    (hu : u ∈ g.deps v) : l.idxOf v < l.idxOf u := by
  induction h with
  | nil => exact absurd hv List.not_mem_nil
  | @cons w l hw hs ih =>
    obtain ⟨hwl, hl⟩ := List.nodup_cons.mp hl
    rcases List.mem_cons.mp hv with rfl | hv
    · have hne : v ≠ u := fun h => hwl (h ▸ hw u hu)
      rw [List.idxOf_cons_self, List.idxOf_cons_ne _ hne]
      exact Nat.succ_pos _
    · have hwv : w ≠ v := fun h => hwl (h ▸ hv)
      have hwu : w ≠ u := fun h => hwl (h ▸ hs.mem_of_mem hv hu)
      rw [List.idxOf_cons_ne _ hwv, List.idxOf_cons_ne _ hwu]
      exact Nat.succ_lt_succ (ih hl hv)

theorem Settled.acyclic (h : Settled g l) (hl : l.Nodup) (hall : ∀ v ∈ g.nodes, v ∈ l) :
    g.Acyclic := by
  refine ⟨fun v => l.length - l.idxOf v, fun v hv u hu => ?_⟩
  have hlt := h.idxOf_lt hl (hall v hv) hu
  have hlen := List.idxOf_lt_length_iff.mpr (h.mem_of_mem (hall v hv) hu)
  show l.length - l.idxOf u < l.length - l.idxOf v
  omega

variable (g) in
/-- Between two pops: the popped nodes (newest first) are settled, the stacked ones wait for
nothing, and every counter counts the dependencies not popped yet. -/
structure Visiting (popped : List ν) (deg : ν → ℕ) (stack : List ν) : Prop where
  nodup : (popped ++ stack).Nodup
  sub : ∀ v ∈ popped ++ stack, v ∈ g.nodes
  settled : Settled g popped
  ready : ∀ v ∈ stack, ∀ u ∈ g.deps v, u ∈ popped
  count : ∀ v ∈ g.nodes, deg v = ((g.deps v).filter (· ∉ popped)).length

variable {stack : List ν}

theorem Visiting.init (hnodup : stack.Nodup)
    (hstack : ∀ v ∈ stack, v ∈ g.nodes ∧ inDegree g v = 0) :
    Visiting g [] (inDegree g) stack where
  nodup := by simpa using hnodup
  sub v hv := (hstack v (by simpa using hv)).1
  settled := .nil
  ready v hv u hu := by
    have := List.eq_nil_of_length_eq_zero (hstack v hv).2
    rw [this] at hu
    exact hu
  count v _ := by simp [inDegree]

section Pop

variable {popped stack : List ν} {deg : ν → ℕ} {u : ν}

theorem Visiting.notMem_popped (h : Visiting g popped deg (u :: stack)) : u ∉ popped :=
  fun hu => (List.nodup_append.mp h.nodup).2.2 u hu u List.mem_cons_self rfl

/-- A node that depends on the popped one is neither popped nor stacked. -/
theorem Visiting.fresh (h : Visiting g popped deg (u :: stack)) {v : ν} (hv : u ∈ g.deps v) :
    v ∉ popped ∧ v ∉ u :: stack := by
  constructor
  · exact fun hp => h.notMem_popped (h.settled.mem_of_mem hp hv)
  · exact fun hs => h.notMem_popped (h.ready v hs u hv)

theorem Visiting.pos (h : Visiting g popped deg (u :: stack)) {v : ν} (hv : v ∈ g.nodes)
    (hu : u ∈ g.deps v) : 0 < deg v := by
  rw [h.count v hv]
  refine List.length_pos_of_mem (List.mem_filter.mpr ⟨hu, ?_⟩)
  simpa using h.notMem_popped

/-- A counter at one counts the popped node. -/
theorem Visiting.ready_of_one (h : Visiting g popped deg (u :: stack)) {v : ν}
    (hv : v ∈ g.nodes) (hu : u ∈ g.deps v) (hone : deg v = 1) {w : ν} (hw : w ∈ g.deps v) :
    w ∈ u :: popped := by
  rw [h.count v hv] at hone
  obtain ⟨x, hx⟩ := List.length_eq_one_iff.mp hone
  have hmem : ∀ y ∈ g.deps v, y ∉ popped → y = x := by
    intro y hy hyp
    have : y ∈ (g.deps v).filter (· ∉ popped) := List.mem_filter.mpr ⟨hy, by simpa using hyp⟩
    rwa [hx, List.mem_singleton] at this
  by_cases hwp : w ∈ popped
  · exact List.mem_cons_of_mem u hwp
  · rw [hmem w hw hwp, ← hmem u hu h.notMem_popped]
    exact List.mem_cons_self

variable (g deg u) in
/-- The nodes `countDown` pushes when `u` is popped. -/
def pushed : List ν := (g.nodes.filter fun v => u ∈ g.deps v ∧ deg v = 1).reverse

theorem mem_pushed {v : ν} :
    v ∈ pushed g deg u ↔ v ∈ g.nodes ∧ u ∈ g.deps v ∧ deg v = 1 := by
  simp [pushed]

theorem Visiting.nodup_pop (h : Visiting g popped deg (u :: stack)) :
    (u :: popped ++ (pushed g deg u ++ stack)).Nodup := by
  have hold := List.nodup_append.mp h.nodup
  have hstack := List.nodup_cons.mp hold.2.1
  have hpushed : (pushed g deg u).Nodup := List.nodup_reverse.mpr (g.nodup.filter _)
  refine List.nodup_append.mpr ⟨List.nodup_cons.mpr ⟨h.notMem_popped, hold.1⟩,
    List.nodup_append.mpr ⟨hpushed, hstack.2, ?_⟩, ?_⟩
  · rintro a ha b hb rfl
    exact (h.fresh (mem_pushed.mp ha).2.1).2 (List.mem_cons_of_mem u hb)
  · rintro a ha b hb rfl
    rcases List.mem_append.mp hb with hb' | hb'
    · have hfresh := h.fresh (mem_pushed.mp hb').2.1
      rcases List.mem_cons.mp ha with rfl | ha
      · exact hfresh.2 List.mem_cons_self
      · exact hfresh.1 ha
    · rcases List.mem_cons.mp ha with rfl | ha
      · exact hstack.1 hb'
      · exact hold.2.2 a ha a (List.mem_cons_of_mem u hb') rfl

theorem Visiting.pop (h : Visiting g popped deg (u :: stack)) {next : (ν → ℕ) × List ν}
    (hnext : countDown g u g.nodes deg stack = some next) :
    Visiting g (u :: popped) next.1 next.2 := by
  rw [countDown_eq g.nodup fun v hv hu => h.pos hv hu] at hnext
  obtain rfl := Option.some.inj hnext
  refine ⟨h.nodup_pop, ?_, .cons (h.ready u List.mem_cons_self) h.settled, ?_, ?_⟩
  · intro v hv
    rcases List.mem_append.mp hv with hv | hv
    · exact h.sub v (by simp at hv ⊢; tauto)
    · rcases List.mem_append.mp hv with hv | hv
      · exact (mem_pushed.mp hv).1
      · exact h.sub v (by simp [hv])
  · intro v hv w hw
    rcases List.mem_append.mp hv with hv | hv
    · obtain ⟨hvn, hu, hone⟩ := mem_pushed.mp hv
      exact h.ready_of_one hvn hu hone hw
    · exact List.mem_cons_of_mem u (h.ready v (List.mem_cons_of_mem u hv) w hw)
  · intro v hv
    rw [length_filter_drop (g.deps_nodup v) (p := (· ∉ popped))
      (fun w => by simp [and_comm]) h.notMem_popped, ← h.count v hv]
    simp only [hv, true_and]

end Pop

variable (g) in
/-- Every node whose dependencies are popped is popped or stacked. -/
def Caught (popped stack : List ν) : Prop :=
  ∀ v ∈ g.nodes, (∀ u ∈ g.deps v, u ∈ popped) → v ∈ popped ++ stack

theorem Visiting.caught_pop {popped : List ν} {deg : ν → ℕ} {u : ν}
    (h : Visiting g popped deg (u :: stack)) (hc : Caught g popped (u :: stack)) :
    Caught g (u :: popped) (pushed g deg u ++ stack) := by
  intro v hv hdeps
  by_cases hu : u ∈ g.deps v
  · -- `u` is the only dependency the counter of `v` still counts
    have hone : (g.deps v).filter (· ∉ popped) = [u] := by
      have hnodup := (g.deps_nodup v).filter (· ∉ popped)
      refine List.perm_singleton.mp ((List.perm_ext_iff_of_nodup hnodup (by simp)).mpr ?_)
      intro w
      rw [List.mem_filter, List.mem_singleton]
      constructor
      · rintro ⟨hw, hwp⟩
        exact (List.mem_cons.mp (hdeps w hw)).resolve_right (by simpa using hwp)
      · rintro rfl
        exact ⟨hu, by simpa using h.notMem_popped⟩
    have hpushed : v ∈ pushed g deg u := mem_pushed.mpr ⟨hv, hu, by rw [h.count v hv, hone]; rfl⟩
    exact List.mem_append_right _ (List.mem_append_left _ hpushed)
  · have hpopped : ∀ w ∈ g.deps v, w ∈ popped := fun w hw =>
      (List.mem_cons.mp (hdeps w hw)).resolve_left fun heq => hu (heq ▸ hw)
    have hmem := hc v hv hpopped
    simp only [List.mem_append, List.mem_cons] at hmem ⊢
    tauto

theorem visit_total (fuel : ℕ) : ∀ (popped : List ν) {stack : List ν} {deg : ν → ℕ},
    Visiting g popped deg stack → Caught g popped stack → g.nodes.length ≤ fuel + popped.length →
      ∃ l deg', visit g fuel deg stack popped.length = some l.length ∧ Visiting g l deg' [] ∧
        Caught g l [] := by
  induction fuel with
  | zero =>
    intro popped stack deg h hc hfuel
    cases stack with
    | nil => exact ⟨popped, deg, rfl, h, hc⟩
    | cons u stack =>
      -- as many pops as nodes leave nothing to stack
      have hle := (List.subperm_of_subset h.nodup h.sub).length_le
      simp only [List.length_append, List.length_cons] at hle
      omega
  | succ fuel ih =>
    intro popped stack deg h hc hfuel
    cases stack with
    | nil => exact ⟨popped, deg, rfl, h, hc⟩
    | cons u stack =>
      have hpos : ∀ v ∈ g.nodes, u ∈ g.deps v → 0 < deg v := fun v hv hu => h.pos hv hu
      rw [visit, countDown_eq g.nodup hpos]
      exact ih (u :: popped) (h.pop (countDown_eq g.nodup hpos)) (h.caught_pop hc)
        (by rw [List.length_cons]; omega)

/-- **Visiting ends, and pops every node exactly of a ranked graph.** -/
theorem visit_spec (hg : g.Closed) {stack : List ν} (hnodup : stack.Nodup)
    (hstack : ∀ v, v ∈ stack ↔ v ∈ g.nodes ∧ inDegree g v = 0) :
    ∃ k, visit g g.nodes.length (inDegree g) stack 0 = some k ∧
      (k = g.nodes.length ↔ g.Acyclic) := by
  have hcaught : Caught g [] stack := by
    intro v hv hdeps
    have hnil : g.deps v = [] := List.eq_nil_iff_forall_not_mem.mpr fun u hu =>
      List.not_mem_nil (hdeps u hu)
    exact (hstack v).mpr ⟨hv, by rw [inDegree, hnil, List.length_nil]⟩
  obtain ⟨l, deg, hvisit, hl, hlc⟩ := visit_total g.nodes.length []
    (.init hnodup fun v hv => (hstack v).mp hv) hcaught (Nat.le_refl _)
  have hlnodup : l.Nodup := by simpa using hl.nodup
  have hsub : ∀ v ∈ l, v ∈ g.nodes := by simpa using hl.sub
  have hsubperm := List.subperm_of_subset hlnodup hsub
  refine ⟨l.length, hvisit, fun hlen => ?_, fun hacyclic => ?_⟩
  · have hperm := hsubperm.perm_of_length_le (Nat.le_of_eq hlen.symm)
    exact hl.settled.acyclic hlnodup fun v hv => hperm.mem_iff.mpr hv
  · obtain ⟨rank, hrank⟩ := hacyclic
    -- by induction on the rank: a node whose dependencies are all popped is popped
    have hall : ∀ n, ∀ v ∈ g.nodes, rank v = n → v ∈ l := by
      intro n
      induction n using Nat.strongRecOn with
      | ind n ih =>
        intro v hv hn
        have hdeps : ∀ u ∈ g.deps v, u ∈ l := fun u hu =>
          ih (rank u) (hn ▸ hrank v hv u hu) u (hg v hv u hu) rfl
        simpa using hlc v hv hdeps
    exact Nat.le_antisymm hsubperm.length_le
      (List.subperm_of_subset g.nodup fun v hv => hall _ v hv rfl).length_le

/-! ### Peeling -/

variable (g) in
/-- Between two removals: every counter counts the dependencies that remain. -/
structure Waiting (remaining : List ν) (deg : ν → ℕ) : Prop where
  nodup : remaining.Nodup
  sub : ∀ v ∈ remaining, v ∈ g.nodes
  count : ∀ v ∈ remaining, deg v = ((g.deps v).filter (· ∈ remaining)).length

theorem Waiting.init (hclosed : g.Closed) : Waiting g g.nodes (inDegree g) where
  nodup := g.nodup
  sub _ hv := hv
  count v hv := by
    rw [List.filter_eq_self.mpr fun u hu => by simpa using hclosed v hv u hu, inDegree]

section Round

variable {remaining : List ν} {deg : ν → ℕ}

theorem Waiting.peelNode_eq (h : Waiting g remaining deg) {u : ν} (hu : u ∈ remaining) :
    ∃ deg', peelNode g (remaining, deg) u = some (remaining.erase u, deg') ∧
      Waiting g (remaining.erase u) deg' := by
  have hpos : ∀ v ∈ remaining.erase u, u ∈ g.deps v → 0 < deg v := by
    intro v hv huv
    rw [h.count v (List.mem_of_mem_erase hv)]
    exact List.length_pos_of_mem (List.mem_filter.mpr ⟨huv, by simpa using hu⟩)
  refine ⟨_, by rw [peelNode, countDown_eq (h.nodup.erase u) hpos]; rfl, h.nodup.erase u,
    fun v hv => h.sub v (List.mem_of_mem_erase hv), fun v hv => ?_⟩
  rw [length_filter_drop (g.deps_nodup v)
    (fun w => by rw [h.nodup.mem_erase_iff, and_comm]) hu,
    ← h.count v (List.mem_of_mem_erase hv)]
  simp only [hv, true_and]

theorem Waiting.peelLayer_eq {layer : List ν} (hlayer : layer.Nodup) :
    ∀ {remaining : List ν} {deg : ν → ℕ}, Waiting g remaining deg →
      (∀ v ∈ layer, v ∈ remaining) →
      ∃ deg', layer.foldlM (peelNode g) (remaining, deg) = some (remaining.diff layer, deg') ∧
        Waiting g (remaining.diff layer) deg' := by
  induction layer with
  | nil =>
    intro remaining deg h _
    exact ⟨deg, rfl, h⟩
  | cons u layer ih =>
    intro remaining deg h hsub
    obtain ⟨hu, hlayer⟩ := List.nodup_cons.mp hlayer
    obtain ⟨deg₁, hnode, h₁⟩ := h.peelNode_eq (hsub u List.mem_cons_self)
    have hsub₁ : ∀ v ∈ layer, v ∈ remaining.erase u := fun v hv =>
      (h.nodup.mem_erase_iff).mpr
        ⟨fun hvu => hu (hvu ▸ hv), hsub v (List.mem_cons_of_mem u hv)⟩
    obtain ⟨deg₂, hfold, h₂⟩ := ih hlayer h₁ hsub₁
    rw [List.diff_cons]
    exact ⟨deg₂, by rw [List.foldlM_cons, hnode]; exact hfold, h₂⟩

/-- A counter at zero leaves no remaining dependency. -/
theorem Waiting.deg_eq_zero (h : Waiting g remaining deg) {v : ν} (hv : v ∈ remaining) :
    deg v = 0 ↔ ∀ u ∈ g.deps v, u ∉ remaining := by
  rw [h.count v hv, List.length_eq_zero_iff, List.filter_eq_nil_iff]
  simp

/-- A node of least rank waits for nothing. -/
theorem Waiting.exists_ready (h : Waiting g remaining deg) (hg : g.Acyclic) {v : ν}
    (hv : v ∈ remaining) : ∃ w ∈ remaining, deg w = 0 := by
  obtain ⟨rank, hrank⟩ := hg
  induction hn : rank v using Nat.strongRecOn generalizing v with
  | ind n ih =>
    by_cases hdeg : deg v = 0
    · exact ⟨v, hv, hdeg⟩
    · rw [h.count v hv] at hdeg
      obtain ⟨u, hu⟩ := List.exists_mem_of_length_pos (Nat.pos_iff_ne_zero.mpr hdeg)
      obtain ⟨huv, hur⟩ := List.mem_filter.mp hu
      exact ih (rank u) (hn ▸ hrank v (h.sub v hv) u huv) (by simpa using hur) rfl

theorem Waiting.length_diff_lt (h : Waiting g remaining deg) {layer : List ν} {v : ν}
    (hv : v ∈ remaining) (hvl : v ∈ layer) : (remaining.diff layer).length < remaining.length := by
  have hsub := List.diff_sublist remaining layer
  refine Nat.lt_of_le_of_ne hsub.length_le fun heq => ?_
  rw [← hsub.eq_of_length heq] at hv
  exact (h.nodup.mem_sdiff_iff.mp hv).2 hvl

end Round

variable (g) in
/-- The layers of `peel`: each has the remaining nodes that depend on no remaining one. -/
inductive Peeled : List ν → List (List ν) → Prop
  | nil : Peeled [] []
  | cons {remaining layer : List ν} {layers : List (List ν)} :
    remaining.Nodup → layer.Nodup →
    (∀ v, v ∈ layer ↔ v ∈ remaining ∧ ∀ u ∈ g.deps v, u ∉ remaining) →
    Peeled (remaining.diff layer) layers → Peeled remaining (layer :: layers)

variable (g) in
/-- The layers list the remaining nodes once each, and a remaining dependency of a node is in a
layer before the node's. -/
structure Layering (remaining : List ν) (layers : List (List ν)) : Prop where
  perm : layers.flatten.Perm remaining
  before : ∀ pre layer post, layers = pre ++ layer :: post → ∀ v ∈ layer, ∀ u ∈ g.deps v,
    u ∈ remaining → u ∈ pre.flatten

omit [DecidableEq ν] in
theorem Layering.nil : Layering g [] [] :=
  ⟨.refl _, fun _ _ _ h => by simp at h⟩

variable {remaining : List ν} {layers : List (List ν)}

theorem Layering.cons {layer : List ν} (hnodup : remaining.Nodup) (hlayer : layer.Nodup)
    (hmem : ∀ v ∈ layer, v ∈ remaining ∧ ∀ u ∈ g.deps v, u ∉ remaining)
    (h : Layering g (remaining.diff layer) layers) : Layering g remaining (layer :: layers) := by
  have hdiff : ∀ v, v ∈ remaining.diff layer ↔ v ∈ remaining ∧ v ∉ layer :=
    fun v => hnodup.mem_sdiff_iff
  refine ⟨?_, ?_⟩
  · have happend : (layer ++ remaining.diff layer).Nodup :=
      List.nodup_append.mpr ⟨hlayer, hnodup.diff, fun a ha b hb hab =>
        ((hdiff b).mp hb).2 (hab ▸ ha)⟩
    refine (h.perm.append_left layer).trans ?_
    refine (List.perm_ext_iff_of_nodup happend hnodup).mpr fun v => ?_
    rw [List.mem_append, hdiff]
    constructor
    · rintro (hv | hv)
      · exact (hmem v hv).1
      · exact hv.1
    · intro hv
      by_cases hvl : v ∈ layer
      · exact .inl hvl
      · exact .inr ⟨hv, hvl⟩
  · intro pre layer' post heq v hv u hu hur
    cases pre with
    | nil =>
      obtain ⟨rfl, -⟩ := List.cons.inj heq
      exact absurd hur ((hmem v hv).2 u hu)
    | cons first pre =>
      obtain ⟨rfl, hrest⟩ := List.cons.inj heq
      rw [List.flatten_cons, List.mem_append]
      by_cases hul : u ∈ layer
      · exact .inl hul
      · exact .inr (h.before pre layer' post hrest v hv u hu ((hdiff u).mpr ⟨hur, hul⟩))

theorem Peeled.layering (h : Peeled g remaining layers) : Layering g remaining layers := by
  induction h with
  | nil => exact .nil
  | cons hnodup hlayer hmem _ ih => exact .cons hnodup hlayer (fun v hv => (hmem v).mp hv) ih

theorem peel_peeled (hg : g.Acyclic) (order : IterOrder ν) {fuel : ℕ} :
    ∀ (round : ℕ) {remaining : List ν} {deg : ν → ℕ}, Waiting g remaining deg →
      remaining.length ≤ fuel →
      ∃ layers, peel g order fuel round remaining deg = some layers ∧
        Peeled g remaining layers := by
  induction fuel with
  | zero =>
    intro round remaining deg _ hlen
    obtain rfl := List.eq_nil_of_length_eq_zero (Nat.le_zero.mp hlen)
    exact ⟨[], rfl, .nil⟩
  | succ fuel ih =>
    intro round remaining deg h hlen
    cases hr : remaining with
    | nil => exact ⟨[], rfl, .nil⟩
    | cons first rest =>
      rw [← hr]
      let layer := (order.iter round remaining).filter fun v => deg v = 0
      have hmem : ∀ v, v ∈ layer ↔ v ∈ remaining ∧ deg v = 0 := fun v => by
        simp [layer, (order.perm round remaining).mem_iff]
      have hnodup : layer.Nodup := ((order.perm round remaining).nodup_iff.mpr h.nodup).filter _
      obtain ⟨w, hw, hw0⟩ := h.exists_ready hg (hr ▸ List.mem_cons_self)
      have hwl : w ∈ layer := (hmem w).mpr ⟨hw, hw0⟩
      obtain ⟨deg', hfold, h'⟩ := h.peelLayer_eq hnodup fun v hv => ((hmem v).mp hv).1
      have hlt := h.length_diff_lt hw hwl
      have hlen' : (remaining.diff layer).length ≤ fuel := by omega
      obtain ⟨layers, hpeel, hlayers⟩ := ih (round + 1) h' hlen'
      refine ⟨layer :: layers, ?_, .cons h.nodup hnodup (fun v => ?_) hlayers⟩
      · have hne : layer.isEmpty = false := by
          cases hl : layer with
          | nil => exact absurd (hl ▸ hwl) List.not_mem_nil
          | cons _ _ => rfl
        rw [peel]
        · simp only [layer] at hne hfold hpeel ⊢
          rw [hne, hfold]
          simp [hpeel]
        · simp [hr]
      · rw [hmem]
        exact and_congr_right fun hv => h.deg_eq_zero hv

/-- **Peeling layers a ranked graph.** -/
theorem peel_spec (hg : g.Acyclic) (hclosed : g.Closed) (order : IterOrder ν) (round : ℕ) :
    ∃ layers, peel g order g.nodes.length round g.nodes (inDegree g) = some layers ∧
      Peeled g g.nodes layers :=
  peel_peeled hg order round (.init hclosed) (Nat.le_refl _)

/-! ### Depth -/

section Depth

variable {remaining : List ν} {layers : List (List ν)}

/-- A node that is not in the first layer depends on one of the layer right before its own. -/
theorem Peeled.exists_dep (h : Peeled g remaining layers) :
    ∀ {i : ℕ} {layer next : List ν} {v : ν}, layers[i]? = some layer →
      layers[i + 1]? = some next → v ∈ next → ∃ u ∈ g.deps v, u ∈ layer := by
  induction h with
  | nil => simp
  | @cons remaining layer layers hnodup _ hmem hrest ih =>
    intro i prev next v hi hnext hv
    cases i with
    | succ i => exact ih hi hnext hv
    | zero =>
      obtain rfl := Option.some.inj hi
      generalize hrem : remaining.diff layer = rest at hrest
      cases hrest with
      | nil => simp at hnext
      | cons _ _ hmem' _ =>
        obtain rfl := Option.some.inj hnext
        obtain ⟨hvr, hready⟩ := (hmem' v).mp hv
        rw [← hrem] at hvr hready
        obtain ⟨hvr, hvl⟩ := hnodup.mem_sdiff_iff.mp hvr
        -- it was not ready a round earlier, and what it waited for is gone now
        have hwait : ¬ ∀ u ∈ g.deps v, u ∉ remaining := fun h => hvl ((hmem v).mpr ⟨hvr, h⟩)
        push Not at hwait
        obtain ⟨u, hu, hur⟩ := hwait
        refine ⟨u, hu, ?_⟩
        by_contra hul
        exact hready u hu (hnodup.mem_sdiff_iff.mpr ⟨hur, hul⟩)

omit [DecidableEq ν] in
theorem Layering.exists_lt (h : Layering g remaining layers) {i : ℕ} {layer : List ν} {v u : ν}
    (hi : layers[i]? = some layer) (hv : v ∈ layer) (hu : u ∈ g.deps v) (hur : u ∈ remaining) :
    ∃ j < i, ∃ earlier, layers[j]? = some earlier ∧ u ∈ earlier := by
  obtain ⟨hlt, rfl⟩ := List.getElem?_eq_some_iff.mp hi
  have hsplit : layers = layers.take i ++ layers[i] :: layers.drop (i + 1) := by simp
  obtain ⟨earlier, hmem, hue⟩ := List.mem_flatten.mp (h.before _ _ _ hsplit v hv u hu hur)
  obtain ⟨j, hj, rfl⟩ := List.mem_iff_getElem.mp hmem
  rw [List.length_take] at hj
  refine ⟨j, by omega, _, ?_, hue⟩
  rw [List.getElem_take, List.getElem?_eq_getElem]

theorem Peeled.exists_path (h : Peeled g remaining layers) {i : ℕ} :
    ∀ {layer : List ν} {v : ν}, layers[i]? = some layer → v ∈ layer →
      ∃ path, List.IsChain g.Dep (v :: path) ∧ path.length = i := by
  induction i with
  | zero => exact fun {_ v} _ _ => ⟨[], .singleton v, rfl⟩
  | succ i ih =>
    intro layer v hi hv
    obtain ⟨hlt, -⟩ := List.getElem?_eq_some_iff.mp hi
    have hprev := List.getElem?_eq_getElem (Nat.lt_of_succ_lt hlt)
    obtain ⟨u, hu, hul⟩ := h.exists_dep hprev hi hv
    obtain ⟨path, hpath, hlen⟩ := ih hprev hul
    exact ⟨u :: path, .cons_cons hu hpath, by rw [List.length_cons, hlen]⟩

omit [DecidableEq ν] in
theorem Layering.length_le (hclosed : g.Closed) (h : Layering g g.nodes layers) {path : List ν} :
    ∀ {i : ℕ} {layer : List ν} {v : ν}, layers[i]? = some layer → v ∈ layer →
      List.IsChain g.Dep (v :: path) → path.length ≤ i := by
  induction path with
  | nil => simp
  | cons u path ih =>
    intro i layer v hi hv hpath
    obtain ⟨hu, hpath⟩ := List.isChain_cons_cons.mp hpath
    have hvn : v ∈ g.nodes :=
      h.perm.mem_iff.mp (List.mem_flatten.mpr ⟨layer, List.mem_of_getElem? hi, hv⟩)
    obtain ⟨j, hj, earlier, hearlier, hue⟩ := h.exists_lt hi hv hu (hclosed v hvn u hu)
    have := ih hearlier hue hpath
    rw [List.length_cons]
    omega

/-- **The layer of a node is the length of the longest path below it.** -/
theorem Peeled.isGreatest (hclosed : g.Closed) (h : Peeled g g.nodes layers) {i : ℕ}
    {layer : List ν} {v : ν} (hi : layers[i]? = some layer) (hv : v ∈ layer) :
    IsGreatest {n | ∃ path, List.IsChain g.Dep (v :: path) ∧ path.length = n} i := by
  refine ⟨h.exists_path hi hv, ?_⟩
  rintro n ⟨path, hpath, rfl⟩
  exact h.layering.length_le hclosed hi hv hpath

end Depth

end Kahn

end LiteServer
