import LiteServer.Ensemble.Schedule

/-!
# Chains of streaming steps

A DAG may stream through one chain of steps. `buildChains` walks over the steps in the order of the
file, and from each streaming step that no walk has visited on to its consumer, the consumer of
that, and so on. It accepts no streaming step at all, one at the output, or one chain that holds
them all.

The walk visits the steps behind its start but not the start. So a step in the middle of a chain
that stands before the head in the file starts a walk of its own, and the walk from the head then
meets a visited step. The order of the file matters: a chain is accepted exactly when its head
stands before the steps in its middle.

## Main results

* `buildChains_eq_ok` — what is accepted, and what comes out
* `buildChains_sound` — one chain with every streaming step, or none
* `walkChain_errors`, `buildChains_errors` — no walk runs out of turns
* `chains_permuted_iff` — two orders of one file are accepted alike exactly when both or neither
  have the head of the chain before its middle
* `middle_first_rejected` — two orders that are not
-/

namespace LiteServer

namespace Ensemble

open Checks

/-! ### The scan -/

/-- The nodes of a chain: a line through every streaming step that ends at the output step. -/
structure IsPipeline (E : Externals) (steps : List EnsembleStep) (out : ℕ) (nodes : List ℕ) :
    Prop where
  line : IsLine E steps nodes
  two : 2 ≤ nodes.length
  last : nodes.getLast? = some out
  streams : ∀ i, i ∈ nodes ↔ isStream steps i = true

/-- The head of a chain stands before the steps in its middle. -/
def HeadFirst (nodes : List ℕ) : Prop :=
  ∀ head ∈ nodes.head?, ∀ i ∈ nodes.tail.dropLast, head < i

/-- What the scan has found among the steps below `k`. -/
inductive Found (E : Externals) (steps : List EnsembleStep) (out k : ℕ) :
    List Chain × List ℕ → Prop
  | none : (∀ s < k, isStream steps s = true → s = out ∧ consumersOf E steps s = []) →
      Found E steps out k ([], [])
  | chain {head line visited} : IsLine E steps (head :: line) → line.getLast? = some out →
      (∀ i ∈ head :: line, isStream steps i = true) → (∀ i, i ∈ visited ↔ i ∈ line) →
      (∀ s < k, isStream steps s = true → s ∈ head :: line) →
      (∀ s < head, isStream steps s = true → s = out) →
      Found E steps out k ([⟨head :: line⟩], visited)

section

variable {E : Externals} {steps : List EnsembleStep} {out : ℕ}

theorem isStream_lt {i : ℕ} (h : isStream steps i = true) : i < steps.length := by
  rw [isStream, Option.any_eq_true] at h
  obtain ⟨step, hstep, -⟩ := h
  exact (List.getElem?_eq_some_iff.mp hstep).1

/-- A step that adds nothing to what has been found. -/
theorem Found.succ {k : ℕ} {found : List Chain × List ℕ} (h : Found E steps out k found)
    (hk : isStream steps k = true → k ∈ found.2 ∨ k = out ∧ consumersOf E steps k = []) :
    Found E steps out (k + 1) found := by
  cases h with
  | none hnone =>
    refine .none fun s hs hstream => ?_
    rcases Nat.lt_succ_iff_lt_or_eq.mp hs with hlt | rfl
    · exact hnone s hlt hstream
    · exact (hk hstream).resolve_left List.not_mem_nil
  | @chain head line visited hline hlast hnodes hvisited hseen hbefore =>
    refine .chain hline hlast hnodes hvisited (fun s hs hstream => ?_) hbefore
    rcases Nat.lt_succ_iff_lt_or_eq.mp hs with hlt | rfl
    · exact hseen s hlt hstream
    · refine List.mem_cons_of_mem head ?_
      rcases hk hstream with hvis | ⟨rfl, -⟩
      · exact (hvisited s).mp hvis
      · exact List.mem_of_getLast? hlast

theorem scanStream_found {k : ℕ} {found result : List Chain × List ℕ}
    (h : scanStream E steps out found k = .ok result) (hfound : Found E steps out k found) :
    Found E steps out (k + 1) result := by
  obtain ⟨chains, visited⟩ := found
  rw [scanStream] at h
  split at h
  · rename_i hskip
    obtain rfl := pure_eq_ok.mp h
    refine hfound.succ fun hstream => .inl ?_
    simpa [hstream] using hskip
  · rename_i hstart
    obtain ⟨hstream, hfresh⟩ : isStream steps k = true ∧ k ∉ visited := by simpa using hstart
    split at h
    · rename_i hnone
      simp only [bind_eq_ok] at h
      obtain ⟨_, hout, h⟩ := h
      obtain rfl := pure_eq_ok.mp h
      exact hfound.succ fun _ => .inr ⟨by simpa using hout, hnone⟩
    · rename_i c fieldRef hone
      simp only [bind_eq_ok, rejectIf_eq_ok] at h
      obtain ⟨_, rfl, ⟨nodes, visited'⟩, hwalk, _, htail, h⟩ := h
      obtain rfl := pure_eq_ok.mp h
      obtain ⟨line, rfl, hline, hnodes, hvisited⟩ := walkChain_eq_ok hwalk
      have hlast : (c :: line).getLast? = some out := by
        simpa [List.getLast?_cons] using htail
      cases hfound with
      | none hbefore =>
        refine .chain ⟨hone, hline⟩ hlast ?_ (by simpa using hvisited) (fun s hs hs' => ?_)
          fun s hs hs' => (hbefore s hs hs').1
        · exact List.forall_mem_cons.mpr ⟨hstream, fun i hi => (hnodes i hi).1⟩
        · rcases Nat.lt_succ_iff_lt_or_eq.mp hs with hlt | rfl
          · rw [(hbefore s hlt hs').1]
            exact List.mem_cons_of_mem k (List.mem_of_getLast? hlast)
          · exact List.mem_cons_self
      | @chain head line' _ _ hlast' _ hvisited' _ _ =>
        -- both chains would end at the output step, which the first walk has visited
        have hout := (hvisited' out).mpr (List.mem_of_getLast? hlast')
        exact absurd hout (hnodes out (List.mem_of_getLast? hlast)).2
    · exact absurd h (by simp)

theorem all_unary_iff :
    (steps.filter (·.stream)).isEmpty = true ↔ ∀ i, isStream steps i = false := by
  rw [List.isEmpty_iff, List.filter_eq_nil_iff]
  refine ⟨fun h i => ?_, fun h s hs => ?_⟩
  · rw [isStream, Option.any_eq_false]
    exact fun s hs => by simpa using h s (List.mem_of_getElem? hs)
  · obtain ⟨i, hi⟩ := List.getElem?_of_mem hs
    simpa [isStream, hi] using h i

/-! ### What is accepted -/

/-- A walk along a line of streaming steps that nothing has visited ends at its last step. -/
theorem walkChain_of_isLine {fuel : ℕ} {visited nodes line : List ℕ} {cur c : ℕ}
    (hline : IsLine E steps (c :: line)) (hstream : ∀ i ∈ c :: line, isStream steps i = true)
    (hnodup : (c :: line).Nodup) (hfresh : ∀ i ∈ c :: line, i ∉ visited)
    (hfuel : line.length < fuel) :
    walkChain E steps fuel visited nodes cur c =
      .ok (nodes ++ c :: line, (c :: line).reverse ++ visited) := by
  induction line generalizing fuel visited nodes cur c with
  | nil =>
    obtain ⟨fuel, rfl⟩ := Nat.exists_eq_add_one_of_ne_zero (Nat.ne_zero_of_lt hfuel)
    have hnone : consumersOf E steps c = [] := hline
    simp only [walkChain, bind_eq_ok, hnone]
    exact ⟨(), by simp [hstream c], (), by simpa using hfresh c List.mem_cons_self, rfl⟩
  | cons c₂ line ih =>
    obtain ⟨fuel, rfl⟩ := Nat.exists_eq_add_one_of_ne_zero (Nat.ne_zero_of_lt hfuel)
    obtain ⟨hone, hline⟩ := hline
    obtain ⟨hc, hstream⟩ := List.forall_mem_cons.mp hstream
    obtain ⟨hcfresh, hfresh⟩ := List.forall_mem_cons.mp hfresh
    rw [List.nodup_cons] at hnodup
    have hnext : ∀ i ∈ c₂ :: line, i ∉ c :: visited := by
      intro i hi hmem
      rcases List.mem_cons.mp hmem with rfl | hold
      · exact hnodup.1 hi
      · exact hfresh i hi hold
    simp only [walkChain, bind_eq_ok, rejectIf_eq_ok, hone]
    refine ⟨(), by simp [hc], (), by simpa using hcfresh, (), trivial, ?_⟩
    rw [ih hline hstream hnodup.2 hnext (Nat.lt_of_succ_lt_succ hfuel)]
    simp

theorem IsPipeline.nodup {nodes : List ℕ} (hdag : DagRules E steps)
    (hacyclic : (depGraph E steps).Acyclic) (h : IsPipeline E steps out nodes) : nodes.Nodup := by
  obtain ⟨rank, hrank⟩ := hdag.exists_rank hacyclic
  exact h.line.nodup hdag hrank

theorem IsLine.consumersOf_last {nodes : List ℕ} (h : IsLine E steps nodes)
    (hlast : nodes.getLast? = some out) : consumersOf E steps out = [] := by
  induction nodes with
  | nil => exact absurd h id
  | cons first rest ih =>
    cases rest with
    | nil =>
      obtain rfl := Option.some.inj hlast
      exact h
    | cons second rest =>
      exact ih h.2 hlast

/-- The scan goes on past a streaming step that is the output, or that a walk has visited. -/
theorem scanStream_skip {found : List Chain × List ℕ} {k : ℕ}
    (h : isStream steps k = true → k ∈ found.2 ∨ k = out ∧ consumersOf E steps k = []) :
    scanStream E steps out found k = .ok found := by
  obtain ⟨chains, visited⟩ := found
  rw [scanStream]
  split
  · rfl
  · rename_i hstart
    obtain ⟨hstream, hfresh⟩ : isStream steps k = true ∧ k ∉ visited := by simpa using hstart
    obtain ⟨rfl, hnone⟩ := (h hstream).resolve_left hfresh
    simp [hnone, rejectIf, bind, Except.bind]

/-- At the head of a chain the whole chain is found. -/
theorem scanStream_head {head c : ℕ} {line : List ℕ}
    (h : IsPipeline E steps out (head :: c :: line)) (hnodup : (head :: c :: line).Nodup) :
    scanStream E steps out ([], []) head =
      .ok ([⟨head :: c :: line⟩], (c :: line).reverse) := by
  obtain ⟨hone, hline⟩ := h.line
  have hstream : ∀ i ∈ head :: c :: line, isStream steps i = true := fun i => (h.streams i).mp
  have hlen : (head :: c :: line).length ≤ steps.length := by
    have hsub : head :: c :: line ⊆ List.range steps.length := fun i hi =>
      List.mem_range.mpr (isStream_lt (hstream i hi))
    simpa using (hnodup.subperm hsub).length_le
  have hwalk : walkChain E steps (steps.length + 1) [] [head] head c =
      .ok (head :: c :: line, (c :: line).reverse) := by
    rw [walkChain_of_isLine hline (fun i hi => hstream i (List.mem_cons_of_mem head hi))
      (List.nodup_cons.mp hnodup).2 (fun _ _ => List.not_mem_nil) (by simp at hlen; omega)]
    simp
  have hlast : (head :: c :: line).getLastD head = out := by
    rw [List.getLastD_eq_getLast?, h.last, Option.getD_some]
  have hstart : (!isStream steps head || ([] : List ℕ).contains head) = false := by
    simp [hstream head List.mem_cons_self]
  simp only [scanStream, hstart, hone]
  refine bind_eq_ok.mpr ⟨(), rfl, bind_eq_ok.mpr ⟨_, hwalk, bind_eq_ok.mpr ⟨(), ?_, rfl⟩⟩⟩
  exact rejectIf_eq_ok.mpr (decide_eq_false (not_not.mpr hlast))

/-- A chain with its head before its middle is found. -/
theorem buildChains_of_isPipeline {nodes : List ℕ} (h : IsPipeline E steps out nodes)
    (hnodup : nodes.Nodup) (hfirst : HeadFirst nodes) :
    buildChains E steps out = .ok [⟨nodes⟩] := by
  obtain ⟨head, c, line, rfl⟩ : ∃ head c line, nodes = head :: c :: line := by
    match nodes, h.two with
    | head :: c :: line, _ => exact ⟨head, c, line, rfl⟩
  have hlast : (c :: line).getLast? = some out := by
    exact h.last
  have hmem {k : ℕ} (hk : isStream steps k = true) (hne : k ≠ head) : k ∈ c :: line :=
    (List.mem_cons.mp ((h.streams k).mpr hk)).resolve_left hne
  let states (k : ℕ) : List Chain × List ℕ :=
    if k ≤ head then ([], []) else ([⟨head :: c :: line⟩], (c :: line).reverse)
  have hstep : ∀ k < steps.length,
      scanStream E steps out (states k) k = .ok (states (k + 1)) := by
    intro k _
    rcases Nat.lt_trichotomy k head with hlt | rfl | hgt
    · have hk : states k = ([], []) := if_pos hlt.le
      have hk' : states (k + 1) = ([], []) := if_pos hlt
      rw [hk, hk']
      refine scanStream_skip fun hstream => .inr ?_
      -- a step before the head is not in the middle, so it is the output
      have hout : k = out := by
        have hk := hmem hstream hlt.ne
        rw [← List.dropLast_append_getLast? out hlast, List.mem_append, List.mem_singleton] at hk
        exact hk.resolve_left fun hmid => absurd (hfirst head rfl k hmid) (Nat.not_lt.mpr hlt.le)
      exact ⟨hout, hout ▸ h.line.consumersOf_last h.last⟩
    · have hk : states k = ([], []) := if_pos le_rfl
      have hk' : states (k + 1) = ([⟨k :: c :: line⟩], (c :: line).reverse) :=
        if_neg (Nat.not_succ_le_self k)
      rw [hk, hk']
      exact scanStream_head h hnodup
    · have hk : states k = ([⟨head :: c :: line⟩], (c :: line).reverse) :=
        if_neg (Nat.not_le.mpr hgt)
      have hk' : states (k + 1) = states k := by
        rw [hk]
        exact if_neg (Nat.not_le.mpr (Nat.lt_succ_of_lt hgt))
      rw [hk', hk]
      exact scanStream_skip fun hstream => .inl (List.mem_reverse.mpr (hmem hstream hgt.ne'))
  have hhead : isStream steps head = true := (h.streams head).mp List.mem_cons_self
  have hsome : (steps.filter (·.stream)).isEmpty = false := by
    rw [← Bool.not_eq_true, all_unary_iff]
    exact fun hall => absurd (hall head) (by simp [hhead])
  have hend : states steps.length = ([⟨head :: c :: line⟩], (c :: line).reverse) :=
    if_neg (Nat.not_le.mpr (isStream_lt hhead))
  have hfold : (List.range steps.length).foldlM (scanStream E steps out) ([], []) =
      .ok (states steps.length) := foldlM_range hstep
  rw [buildChains, hsome]
  refine bind_eq_ok.mpr ⟨_, hfold, ?_⟩
  rw [hend]
  rfl

/-- The one streaming step is the output step, and nothing refers to it. -/
structure IsTail (E : Externals) (steps : List EnsembleStep) (out : ℕ) : Prop where
  streams : ∀ i, isStream steps i = true ↔ i = out
  last : consumersOf E steps out = []

theorem buildChains_of_isTail (h : IsTail E steps out) : buildChains E steps out = .ok [] := by
  let states (_ : ℕ) : List Chain × List ℕ := ([], [])
  have hfold : (List.range steps.length).foldlM (scanStream E steps out) (states 0) =
      .ok (states steps.length) := by
    refine foldlM_range fun k _ => scanStream_skip fun hstream => ?_
    obtain rfl := (h.streams k).mp hstream
    exact .inr ⟨rfl, h.last⟩
  rw [buildChains]
  split
  · rfl
  · exact bind_eq_ok.mpr ⟨_, hfold, rfl⟩

/-- **What is accepted.** There is no streaming step, or only the output step streams, or the
streaming steps are a chain whose head stands before its middle. -/
theorem buildChains_eq_ok (hdag : DagRules E steps) (hacyclic : (depGraph E steps).Acyclic)
    {chains : List Chain} : buildChains E steps out = .ok chains ↔
      (chains = [] ∧ ∀ i, isStream steps i = false) ∨ (chains = [] ∧ IsTail E steps out) ∨
      ∃ nodes, chains = [⟨nodes⟩] ∧ IsPipeline E steps out nodes ∧ HeadFirst nodes := by
  constructor
  · intro h
    rw [buildChains] at h
    split at h
    · rename_i hunary
      obtain rfl := pure_eq_ok.mp h
      exact .inl ⟨rfl, all_unary_iff.mp hunary⟩
    · rename_i hsome
      obtain ⟨⟨found, visited⟩, hfold, h⟩ := bind_eq_ok.mp h
      obtain rfl := pure_eq_ok.mp h
      have hfound : Found E steps out steps.length (found, visited) :=
        foldlM_range_invariant
          (fun _ _ _ _ hstep hs => scanStream_found hstep hs) hfold
          (.none fun s hs => absurd hs (Nat.not_lt_zero s))
      cases hfound with
      | none hall =>
        obtain ⟨i, hi⟩ : ∃ i, isStream steps i = true := by
          rw [all_unary_iff] at hsome
          simpa using hsome
        obtain ⟨rfl, hnone⟩ := hall i (isStream_lt hi) hi
        refine .inr (.inl ⟨rfl, fun j => ⟨fun hj => ?_, fun hj => hj ▸ hi⟩, hnone⟩)
        exact (hall j (isStream_lt hj) hj).1
      | @chain head line _ hline hlast hnodes hvisited hseen hbefore =>
        have hsplit := List.dropLast_append_getLast? out hlast
        have hpipe : IsPipeline E steps out (head :: line) := by
          refine ⟨hline, ?_, ?_, fun i => ⟨hnodes i, fun hi => hseen i (isStream_lt hi) hi⟩⟩
          · rw [← hsplit]
            simp
          · rw [List.getLast?_cons, hlast, Option.getD_some]
        refine .inr (.inr ⟨_, rfl, hpipe, fun first hfirst i hi => ?_⟩)
        obtain rfl := Option.some.inj hfirst
        have hnodup := hpipe.nodup hdag hacyclic
        rw [← hsplit, List.nodup_cons, List.nodup_append] at hnodup
        have hmem : i ∈ line := List.mem_of_mem_dropLast hi
        have hne : i ≠ out := hnodup.2.2.2 i hi out (List.mem_singleton_self out)
        rcases Nat.lt_trichotomy head i with hlt | rfl | hgt
        · exact hlt
        · exact absurd (List.mem_append_left _ hi) hnodup.1
        · exact absurd (hbefore i hgt (hnodes i (List.mem_cons_of_mem head hmem))) hne
  · rintro (⟨rfl, hunary⟩ | ⟨rfl, htail⟩ | ⟨nodes, rfl, hpipe, hfirst⟩)
    · rw [buildChains, if_pos (all_unary_iff.mpr hunary)]
      rfl
    · exact buildChains_of_isTail htail
    · exact buildChains_of_isPipeline hpipe (hpipe.nodup hdag hacyclic) hfirst

/-! ### The walk ends -/

/-- The steps that no walk has visited. -/
def unvisited (steps : List EnsembleStep) (visited : List ℕ) : List ℕ :=
  (List.range steps.length).filter fun i => !visited.contains i

theorem length_unvisited_cons {visited : List ℕ} {c : ℕ} (hc : c < steps.length)
    (hfresh : c ∉ visited) :
    (unvisited steps (c :: visited)).length < (unvisited steps visited).length := by
  have hsub : unvisited steps (c :: visited) = (unvisited steps visited).filter (· ≠ c) := by
    rw [unvisited, unvisited, List.filter_filter]
    simp
  have hmem : c ∈ unvisited steps visited := by simp [unvisited, hc, hfresh]
  rw [hsub]
  exact List.length_filter_lt_length_iff_exists.mpr ⟨c, hmem, by simp⟩

/-- **A walk ends.** Every turn visits a step that was not visited, so a turn for each of them, and
one more, is enough. -/
theorem walkChain_errors {fuel : ℕ} {visited nodes : List ℕ} {cur c : ℕ}
    (hfuel : (unvisited steps visited).length < fuel) :
    ErrorsIn AppError.IsConfig (walkChain E steps fuel visited nodes cur c) := by
  induction fuel generalizing visited nodes cur c with
  | zero => exact absurd hfuel (Nat.not_lt_zero _)
  | succ fuel ih =>
    refine (ErrorsIn.rejectIf ⟨_, rfl⟩).bind fun _ hstream =>
      (ErrorsIn.rejectIf ⟨_, rfl⟩).bind fun _ hfresh => ?_
    split
    · intro e he
      cases he
    · refine (ErrorsIn.rejectIf ⟨_, rfl⟩).bind fun _ _ => ih ?_
      have hc : isStream steps c = true := by simpa using rejectIf_eq_ok.mp hstream
      have hnew : c ∉ visited := by simpa using rejectIf_eq_ok.mp hfresh
      have hlt := length_unvisited_cons (isStream_lt hc) hnew
      omega
    · intro e he
      exact ⟨_, (Except.error.inj he).symm⟩

theorem scanStream_errors (found : List Chain × List ℕ) (k : ℕ) :
    ErrorsIn AppError.IsConfig (scanStream E steps out found k) := by
  obtain ⟨chains, visited⟩ := found
  rw [scanStream]
  split
  · intro e he
    cases he
  · split
    · refine (ErrorsIn.rejectIf ⟨_, rfl⟩).bind fun _ _ e he => ?_
      cases he
    · have hfuel : (unvisited steps visited).length < steps.length + 1 := by
        have hle : (unvisited steps visited).length ≤ (List.range steps.length).length :=
          List.length_filter_le _ _
        rw [List.length_range] at hle
        omega
      refine (ErrorsIn.rejectIf ⟨_, rfl⟩).bind fun _ _ => (walkChain_errors hfuel).bind fun _ _ =>
        (ErrorsIn.rejectIf ⟨_, rfl⟩).bind fun _ _ e he => ?_
      cases he
    · intro e he
      exact ⟨_, (Except.error.inj he).symm⟩

/-- No walk of the scan runs out of turns, whatever the steps are. -/
theorem buildChains_errors (E : Externals) (steps : List EnsembleStep) (out : ℕ) :
    ErrorsIn AppError.IsConfig (buildChains E steps out) := by
  rw [buildChains]
  split
  · intro e he
    cases he
  · refine ErrorsIn.bind (ErrorsIn.foldlM fun found k _ => scanStream_errors found k) ?_
    intro _ _ e he
    cases he

end

/-! ### References to a step -/

/-- The input `input` of the step at `i` refers to the step at `j`; `rest` is what follows the name
in the reference. -/
def RefersBy (E : Externals) (steps : List EnsembleStep) (i : ℕ) (input : String) (j : ℕ)
    (rest : Option String) : Prop :=
  ∃ step target ref, steps[i]? = some step ∧ steps[j]? = some target ∧
    (input, ref) ∈ step.inputs.entries ∧ refCaptures E ref = some (target.name, rest)

/-- One reference in all the steps goes to the step at `j`: an input of the step at `i`, which takes
it whole. -/
def ReferredOnce (E : Externals) (steps : List EnsembleStep) (j i : ℕ) : Prop :=
  ∃ input, ∀ i' input' rest, RefersBy E steps i' input' j rest ↔
    i' = i ∧ input' = input ∧ rest = none

/-- No step refers to the step at `j`. -/
def Unreferred (E : Externals) (steps : List EnsembleStep) (j : ℕ) : Prop :=
  ∀ i input rest, ¬ RefersBy E steps i input j rest

/-- The references of all steps, each with the step and the input it is of. -/
def allRefs (steps : List EnsembleStep) : List (ℕ × String × String) :=
  steps.zipIdx.flatMap fun si => si.1.inputs.entries.map fun e => (si.2, e)

section

variable {E : Externals} {steps : List EnsembleStep} {i j : ℕ}

theorem mem_allRefs {r : ℕ × String × String} : r ∈ allRefs steps ↔
    ∃ step, steps[r.1]? = some step ∧ r.2 ∈ step.inputs.entries := by
  simp only [allRefs, List.mem_flatMap, List.mem_map, Prod.exists, List.mem_zipIdx_iff_getElem?]
  constructor
  · rintro ⟨step, i, hstep, input, ref, hmem, rfl⟩
    exact ⟨step, hstep, hmem⟩
  · rintro ⟨step, hstep, hmem⟩
    exact ⟨step, r.1, hstep, r.2.1, r.2.2, hmem, rfl⟩

/-- What a reference of the list adds to the consumers of the step at `j`. -/
def consumerOf (E : Externals) (steps : List EnsembleStep) (j : ℕ) (r : ℕ × String × String) :
    Option (ℕ × Bool) :=
  (refCaptures E r.2.2).bind fun c =>
    if position steps c.1 = some j then some (r.1, c.2.isSome) else none

theorem consumersOf_eq_filterMap :
    consumersOf E steps j = (allRefs steps).filterMap (consumerOf E steps j) := by
  rw [allRefs, List.filterMap_flatMap, consumersOf]
  simp only [IndexMap.values, List.filterMap_map]
  rfl

theorem position_eq_some_iff (hnodup : (steps.map (·.name)).Nodup) {name : String} :
    position steps name = some j ↔ ∃ target, steps[j]? = some target ∧ target.name = name := by
  constructor
  · exact position_eq_some
  · rintro ⟨target, htarget, rfl⟩
    exact position_of_getElem? hnodup htarget

theorem refersBy_iff (hnodup : (steps.map (·.name)).Nodup) {input : String} {rest : Option String} :
    RefersBy E steps i input j rest ↔ ∃ ref, (i, input, ref) ∈ allRefs steps ∧
      ∃ source, refCaptures E ref = some (source, rest) ∧ position steps source = some j := by
  simp only [mem_allRefs, position_eq_some_iff hnodup]
  constructor
  · rintro ⟨step, target, ref, hstep, htarget, hmem, hcap⟩
    exact ⟨ref, ⟨step, hstep, hmem⟩, target.name, hcap, target, htarget, rfl⟩
  · rintro ⟨ref, ⟨step, hstep, hmem⟩, source, hcap, target, htarget, rfl⟩
    exact ⟨step, target, ref, hstep, htarget, hmem, hcap⟩

theorem consumerOf_eq_some {r : ℕ × String × String} {x : ℕ × Bool} :
    consumerOf E steps j r = some x ↔ ∃ source rest, refCaptures E r.2.2 = some (source, rest) ∧
      position steps source = some j ∧ x = (r.1, rest.isSome) := by
  simp only [consumerOf, Option.bind_eq_some_iff, Option.ite_none_right_eq_some, Prod.exists,
    Option.some.injEq, eq_comm (a := x)]

theorem unreferred_of_consumersOf (hnodup : (steps.map (·.name)).Nodup)
    (h : consumersOf E steps j = []) : Unreferred E steps j := by
  intro i input rest hrefers
  obtain ⟨ref, hmem, source, hcap, hj⟩ := (refersBy_iff hnodup).mp hrefers
  rw [consumersOf_eq_filterMap, List.filterMap_eq_nil_iff] at h
  have hnone := h _ hmem
  rw [consumerOf_eq_some.mpr ⟨source, rest, hcap, hj, rfl⟩] at hnone
  cases hnone

theorem referredOnce_of_consumersOf (hnodup : (steps.map (·.name)).Nodup)
    (h : consumersOf E steps j = [(i, false)]) : ReferredOnce E steps j i := by
  rw [consumersOf_eq_filterMap, List.filterMap_eq_cons_iff] at h
  obtain ⟨front, r, back, hsplit, hfront, hr, hback⟩ := h
  obtain ⟨source, rest, hcap, hj, hx⟩ := consumerOf_eq_some.mp hr
  obtain ⟨rfl, hrest⟩ := Prod.mk.inj hx
  refine ⟨r.2.1, fun i' input' rest' => ?_⟩
  rw [refersBy_iff hnodup]
  constructor
  · rintro ⟨ref, hmem, source', hcap', hj'⟩
    have hsome : consumerOf E steps j (i', input', ref) = some (i', rest'.isSome) :=
      consumerOf_eq_some.mpr ⟨source', rest', hcap', hj', rfl⟩
    rw [hsplit, List.mem_append, List.mem_cons] at hmem
    rcases hmem with hmem | rfl | hmem
    · exact absurd (hfront _ hmem) (by simp [hsome])
    · obtain ⟨rfl, rfl⟩ := Prod.mk.inj (Option.some.inj (hcap.symm.trans hcap'))
      exact ⟨rfl, rfl, by simpa using hrest.symm⟩
    · exact absurd (List.filterMap_eq_nil_iff.mp hback _ hmem) (by simp [hsome])
  · rintro ⟨rfl, rfl, rfl⟩
    obtain rfl : rest = none := by simpa using hrest.symm
    refine ⟨r.2.2, ?_, source, hcap, hj⟩
    rw [hsplit]
    simp

/-- In a line every step but the last is referred to once, by the next step. -/
theorem IsLine.referredOnce (hnodup : (steps.map (·.name)).Nodup) {nodes : List ℕ}
    (h : IsLine E steps nodes) {k : ℕ} (hj : nodes[k]? = some j) (hi : nodes[k + 1]? = some i) :
    ReferredOnce E steps j i := by
  induction nodes generalizing k with
  | nil => exact absurd h id
  | cons first rest ih =>
    cases rest with
    | nil => simp at hi
    | cons second rest =>
      cases k with
      | zero =>
        obtain rfl : first = j := by simpa using hj
        obtain rfl : second = i := by simpa using hi
        exact referredOnce_of_consumersOf hnodup h.1
      | succ k => exact ih h.2 (by simpa using hj) (by simpa using hi)

end

/-- **What the scan returns.** There is no streaming step and no chain; or the output step alone
streams, nothing refers to it, and there is no chain; or there is one chain, which lists every
streaming step once: each but the last is referred to once in all the steps, as a whole and by the
next one, and the last is the output step, to which nothing refers. The scan always ends. -/
theorem buildChains_sound (E : Externals) (order : IterOrder String) (steps : List EnsembleStep)
    (out : ℕ) (hdag : validateDag E order steps = .ok ()) :
    (∀ chains, buildChains E steps out = .ok chains →
      (chains = [] ∧ ∀ i, isStream steps i = false) ∨
      (chains = [] ∧ (∀ i, isStream steps i = true ↔ i = out) ∧ Unreferred E steps out) ∨
      ∃ nodes, chains = [⟨nodes⟩] ∧ nodes.Nodup ∧ (∀ i, i ∈ nodes ↔ isStream steps i = true) ∧
        (∀ k j i, nodes[k]? = some j → nodes[k + 1]? = some i → ReferredOnce E steps j i) ∧
        nodes.getLast? = some out ∧ Unreferred E steps out) ∧
    ∀ e, buildChains E steps out = .error e → e.IsConfig := by
  refine ⟨fun chains h => ?_, buildChains_errors E steps out⟩
  obtain ⟨hrules, hacyclic⟩ := validateDag_eq_ok.mp hdag
  rcases (buildChains_eq_ok hrules hacyclic).mp h with hunary | ⟨rfl, htail⟩ |
    ⟨nodes, rfl, hpipe, -⟩
  · exact .inl hunary
  · exact .inr (.inl ⟨rfl, htail.streams, unreferred_of_consumersOf hrules.nodup htail.last⟩)
  · refine .inr (.inr ⟨nodes, rfl, hpipe.nodup hrules hacyclic, hpipe.streams, ?_, hpipe.last, ?_⟩)
    · exact fun k j i hj hi => hpipe.line.referredOnce hrules.nodup hj hi
    · exact unreferred_of_consumersOf hrules.nodup (hpipe.line.consumersOf_last hpipe.last)

/-! ### The order of the file -/

/-- The references to a step by name, with the names of the steps that refer to it. -/
def consumerNames (E : Externals) (steps : List EnsembleStep) (target : String) :
    List (String × Bool) :=
  steps.flatMap fun step => step.inputs.values.filterMap fun ref =>
    (refCaptures E ref).bind fun (source, rest) =>
      if source = target then some (step.name, rest.isSome) else none

/-- A line of names. -/
def NameLine (E : Externals) (steps : List EnsembleStep) : List String → Prop
  | [] => False
  | [a] => consumerNames E steps a = []
  | a :: b :: rest => consumerNames E steps a = [(b, false)] ∧ NameLine E steps (b :: rest)

/-- The names of a chain. Nothing here depends on the order of the steps. -/
structure NamedPipeline (E : Externals) (steps : List EnsembleStep) (out : String)
    (names : List String) : Prop where
  line : NameLine E steps names
  two : 2 ≤ names.length
  last : names.getLast? = some out
  streams : ∀ n, n ∈ names ↔ ∃ s ∈ steps, s.name = n ∧ s.stream = true

/-- The only streaming step is the one named `out`, and nothing refers to it. -/
structure NamedTail (E : Externals) (steps : List EnsembleStep) (out : String) : Prop where
  streams : ∀ n, n = out ↔ ∃ s ∈ steps, s.name = n ∧ s.stream = true
  last : consumerNames E steps out = []

/-- The head of a chain stands in the file before the steps in its middle. -/
def HeadDeclaredFirst (steps : List EnsembleStep) (names : List String) : Prop :=
  HeadFirst (names.filterMap (position steps))

section

variable {E : Externals} {steps steps' : List EnsembleStep} {out : String}

theorem consumerNames_perm (h : steps.Perm steps') (target : String) :
    (consumerNames E steps target).Perm (consumerNames E steps' target) :=
  h.flatMap_right _

theorem nameLine_of_perm (h : steps.Perm steps') {names : List String}
    (hline : NameLine E steps names) : NameLine E steps' names := by
  induction names with
  | nil => exact hline
  | cons a names ih =>
    have hperm := (consumerNames_perm (E := E) h a).symm
    cases names with
    | nil =>
      exact (hline ▸ hperm).eq_nil
    | cons b names =>
      obtain ⟨hone, hline⟩ := hline
      exact ⟨(hone ▸ hperm).eq_singleton, ih hline⟩

theorem exists_stream_of_perm (h : steps.Perm steps') (n : String) :
    (∃ s ∈ steps, s.name = n ∧ s.stream = true) ↔ ∃ s ∈ steps', s.name = n ∧ s.stream = true :=
  exists_congr fun _ => and_congr_left fun _ => h.mem_iff

theorem NamedPipeline.of_perm (h : steps.Perm steps') {names : List String}
    (hpipe : NamedPipeline E steps out names) : NamedPipeline E steps' out names :=
  ⟨nameLine_of_perm h hpipe.line, hpipe.two, hpipe.last,
    fun n => (hpipe.streams n).trans (exists_stream_of_perm h n)⟩

theorem NamedTail.of_perm (h : steps.Perm steps') (htail : NamedTail E steps out) :
    NamedTail E steps' out :=
  ⟨fun n => (htail.streams n).trans (exists_stream_of_perm h n),
    (htail.last ▸ (consumerNames_perm h out).symm).eq_nil⟩

theorem DagRules.of_perm (h : DagRules E steps) (hperm : steps.Perm steps') :
    DagRules E steps' := by
  have hnames : (steps.map (·.name)).Perm (steps'.map (·.name)) := hperm.map _
  refine ⟨fun hnil => h.nonempty ?_, hnames.nodup_iff.mp h.nodup, fun s hs => ?_,
    fun s hs ref href => ?_⟩
  · rw [hnil] at hperm
    exact hperm.eq_nil
  · exact h.name_ne s (hperm.mem_iff.mpr hs)
  · obtain ⟨source, hcap, hsource⟩ := h.refs s (hperm.mem_iff.mpr hs) ref href
    exact ⟨source, hcap, hsource.imp_right (.imp_right hnames.mem_iff.mp)⟩

theorem acyclic_of_perm (h : (depGraph E steps).Acyclic) (hperm : steps.Perm steps') :
    (depGraph E steps').Acyclic := by
  obtain ⟨rank, hrank⟩ := h
  refine ⟨rank, fun v hv u hu => hrank v ?_ u ?_⟩
  · exact List.mem_dedup.mpr ((hperm.map _).mem_iff.mpr (List.mem_dedup.mp hv))
  · obtain ⟨step, hstep, hname, hsource⟩ := mem_dependencies.mp hu
    exact mem_dependencies.mpr ⟨step, hperm.mem_iff.mpr hstep, hname, hsource⟩

/-! ### Names for positions -/

theorem nameAt_eq {i : ℕ} {step : EnsembleStep} (h : steps[i]? = some step) :
    nameAt steps i = step.name := by
  rw [nameAt, h]
  rfl

theorem position_nameAt (hnodup : (steps.map (·.name)).Nodup) {i : ℕ} (hi : i < steps.length) :
    position steps (nameAt steps i) = some i := by
  rw [nameAt_eq (List.getElem?_eq_getElem hi)]
  exact position_of_getElem? hnodup (List.getElem?_eq_getElem hi)

theorem nameAt_position {n : String} {i : ℕ} (h : position steps n = some i) :
    nameAt steps i = n := by
  obtain ⟨step, hstep, rfl⟩ := position_eq_some h
  exact nameAt_eq hstep

theorem nameAt_inj (hnodup : (steps.map (·.name)).Nodup) {i j : ℕ} (hi : i < steps.length)
    (hj : j < steps.length) (h : nameAt steps i = nameAt steps j) : i = j := by
  have hpos := position_nameAt hnodup hi
  rw [h, position_nameAt hnodup hj] at hpos
  exact (Option.some.inj hpos).symm

/-- The positions of the names of some positions. -/
theorem filterMap_position_map (hnodup : (steps.map (·.name)).Nodup) {nodes : List ℕ}
    (hnodes : ∀ i ∈ nodes, i < steps.length) :
    (nodes.map (nameAt steps)).filterMap (position steps) = nodes := by
  induction nodes with
  | nil => rfl
  | cons i nodes ih =>
    obtain ⟨hi, hnodes⟩ := List.forall_mem_cons.mp hnodes
    rw [List.map_cons, List.filterMap_cons_some (position_nameAt hnodup hi), ih hnodes]

/-- The names of the positions of some names. -/
theorem map_nameAt_filterMap (hnodup : (steps.map (·.name)).Nodup) {names : List String}
    (hnames : ∀ n ∈ names, n ∈ steps.map (·.name)) :
    (names.filterMap (position steps)).map (nameAt steps) = names := by
  induction names with
  | nil => rfl
  | cons n names ih =>
    obtain ⟨hn, hrest⟩ := List.forall_mem_cons.mp hnames
    obtain ⟨step, hstep, rfl⟩ := List.mem_map.mp hn
    obtain ⟨i, hi⟩ := List.getElem?_of_mem hstep
    have hpos := position_of_getElem? hnodup hi
    rw [List.filterMap_cons_some hpos, List.map_cons, nameAt_position hpos, ih hrest]

theorem consumerNames_eq (hnodup : (steps.map (·.name)).Nodup) {j : ℕ} (hj : j < steps.length) :
    consumerNames E steps (nameAt steps j) =
      (consumersOf E steps j).map fun c => (nameAt steps c.1, c.2) := by
  have hsource (source : String) : source = nameAt steps j ↔ position steps source = some j := by
    constructor
    · rintro rfl
      exact position_nameAt hnodup hj
    · exact fun h => (nameAt_position h).symm
  rw [consumerNames, ← List.zipIdx_map_fst 0 steps, List.flatMap_map, List.zipIdx_map_fst,
    consumersOf, List.map_flatMap]
  refine List.flatMap_congr fun si hsi => ?_
  have hname : nameAt steps si.2 = si.1.name := nameAt_eq (List.mem_zipIdx_iff_getElem?.mp hsi)
  rw [List.map_filterMap]
  refine List.filterMap_congr fun ref _ => ?_
  cases hcap : refCaptures E ref with
  | none => rfl
  | some caps => simp [hsource, hname]

theorem consumersOf_eq_singleton_iff (hnodup : (steps.map (·.name)).Nodup) {i j : ℕ}
    (hi : i < steps.length) (hj : j < steps.length) : consumersOf E steps j = [(i, false)] ↔
      consumerNames E steps (nameAt steps j) = [(nameAt steps i, false)] := by
  rw [consumerNames_eq hnodup hj]
  constructor
  · intro h
    rw [h]
    rfl
  · intro h
    obtain ⟨⟨i', field⟩, hone, hname⟩ := List.map_eq_singleton_iff.mp h
    obtain ⟨hname, hfield⟩ := Prod.mk.inj hname
    obtain ⟨step, hstep, -⟩ := mem_consumersOf.mp (hone ▸ List.mem_singleton_self (i', field))
    have hi' : i' < steps.length := (List.getElem?_eq_some_iff.mp hstep).1
    dsimp only at hfield
    rw [hone, nameAt_inj hnodup hi' hi hname, hfield]

theorem isLine_iff_nameLine (hnodup : (steps.map (·.name)).Nodup) {nodes : List ℕ}
    (hnodes : ∀ i ∈ nodes, i < steps.length) :
    IsLine E steps nodes ↔ NameLine E steps (nodes.map (nameAt steps)) := by
  induction nodes with
  | nil => exact Iff.rfl
  | cons j nodes ih =>
    obtain ⟨hj, hnodes⟩ := List.forall_mem_cons.mp hnodes
    cases nodes with
    | nil =>
      change consumersOf E steps j = [] ↔ consumerNames E steps (nameAt steps j) = []
      rw [consumerNames_eq hnodup hj, List.map_eq_nil_iff]
    | cons i nodes =>
      exact and_congr (consumersOf_eq_singleton_iff hnodup (hnodes i List.mem_cons_self) hj)
        (ih hnodes)

theorem isStream_iff_named (hnodup : (steps.map (·.name)).Nodup) {i : ℕ} (hi : i < steps.length) :
    isStream steps i = true ↔ ∃ s ∈ steps, s.name = nameAt steps i ∧ s.stream = true := by
  have hstep := List.getElem?_eq_getElem hi
  rw [isStream, hstep, nameAt_eq hstep, Option.any_some]
  constructor
  · exact fun h => ⟨steps[i], List.getElem_mem hi, rfl, h⟩
  · rintro ⟨s, hs, hname, hstream⟩
    rwa [List.inj_on_of_nodup_map hnodup hs (List.getElem_mem hi) hname] at hstream

/-- The streaming steps by position and by name. -/
theorem streams_iff_named (hnodup : (steps.map (·.name)).Nodup) {nodes : List ℕ}
    (hnodes : ∀ i ∈ nodes, i < steps.length) : (∀ i, i ∈ nodes ↔ isStream steps i = true) ↔
      ∀ n, n ∈ nodes.map (nameAt steps) ↔ ∃ s ∈ steps, s.name = n ∧ s.stream = true := by
  have hmem {i : ℕ} (hi : i < steps.length) :
      nameAt steps i ∈ nodes.map (nameAt steps) ↔ i ∈ nodes := by
    refine ⟨fun h => ?_, fun h => List.mem_map_of_mem h⟩
    obtain ⟨j, hj, hname⟩ := List.mem_map.mp h
    rwa [← nameAt_inj hnodup (hnodes j hj) hi hname]
  constructor
  · intro h n
    constructor
    · intro hn
      obtain ⟨i, hi, rfl⟩ := List.mem_map.mp hn
      exact (isStream_iff_named hnodup (hnodes i hi)).mp ((h i).mp hi)
    · rintro ⟨s, hs, rfl, hstream⟩
      obtain ⟨i, hi⟩ := List.getElem?_of_mem hs
      have hlt := (List.getElem?_eq_some_iff.mp hi).1
      rw [← nameAt_eq hi, hmem hlt, h i, isStream_iff_named hnodup hlt]
      exact ⟨s, hs, (nameAt_eq hi).symm, hstream⟩
  · intro h i
    constructor
    · intro hi
      have hlt := hnodes i hi
      exact (isStream_iff_named hnodup hlt).mpr ((h _).mp ((hmem hlt).mpr hi))
    · intro hi
      have hlt := isStream_lt hi
      exact (hmem hlt).mp ((h _).mpr ((isStream_iff_named hnodup hlt).mp hi))

/-- A chain by position is a chain by name. -/
theorem isPipeline_iff_named (hnodup : (steps.map (·.name)).Nodup) {out : ℕ}
    (hout : out < steps.length) {nodes : List ℕ} (hnodes : ∀ i ∈ nodes, i < steps.length) :
    IsPipeline E steps out nodes ↔
      NamedPipeline E steps (nameAt steps out) (nodes.map (nameAt steps)) := by
  have hlast : nodes.getLast? = some out ↔
      (nodes.map (nameAt steps)).getLast? = some (nameAt steps out) := by
    rw [List.getLast?_map, Option.map_eq_some_iff]
    refine ⟨fun h => ⟨out, h, rfl⟩, ?_⟩
    rintro ⟨j, hj, hname⟩
    rwa [← nameAt_inj hnodup (hnodes j (List.mem_of_getLast? hj)) hout hname]
  constructor
  · exact fun h => ⟨(isLine_iff_nameLine hnodup hnodes).mp h.line, by simpa using h.two,
      hlast.mp h.last, (streams_iff_named hnodup hnodes).mp h.streams⟩
  · exact fun h => ⟨(isLine_iff_nameLine hnodup hnodes).mpr h.line, by simpa using h.two,
      hlast.mpr h.last, (streams_iff_named hnodup hnodes).mpr h.streams⟩

theorem isTail_iff_named (hnodup : (steps.map (·.name)).Nodup) {out : ℕ}
    (hout : out < steps.length) : IsTail E steps out ↔ NamedTail E steps (nameAt steps out) := by
  have hstreams := @streams_iff_named _ hnodup [out] (by simpa using hout)
  simp only [List.mem_singleton, List.map_cons, List.map_nil] at hstreams
  have hlast : consumersOf E steps out = [] ↔ consumerNames E steps (nameAt steps out) = [] := by
    rw [consumerNames_eq hnodup hout, List.map_eq_nil_iff]
  constructor
  · exact fun h => ⟨hstreams.mp fun i => (h.streams i).symm, hlast.mp h.last⟩
  · exact fun h => ⟨fun i => (hstreams.mpr h.streams i).symm, hlast.mpr h.last⟩

/-! ### One chain -/

theorem NameLine.eq_of_head {a : String} {l l' : List String} (h : NameLine E steps (a :: l))
    (h' : NameLine E steps (a :: l')) : l = l' := by
  induction l generalizing a l' with
  | nil =>
    cases l' with
    | nil => rfl
    | cons b l' =>
      have hnone : consumerNames E steps a = [] := h
      exact absurd (hnone.symm.trans h'.1) (by simp)
  | cons b l ih =>
    cases l' with
    | nil =>
      have hnone : consumerNames E steps a = [] := h'
      exact absurd (hnone.symm.trans h.1) (by simp)
    | cons b' l' =>
      obtain rfl : b = b' := by simpa using h.1.symm.trans h'.1
      rw [ih h.2 h'.2]

theorem NameLine.of_append {front back : List String} (hback : back ≠ [])
    (h : NameLine E steps (front ++ back)) : NameLine E steps back := by
  induction front with
  | nil => exact h
  | cons a front ih =>
    refine ih ?_
    rw [List.cons_append] at h
    cases hrest : front ++ back with
    | nil => exact absurd (List.append_eq_nil_iff.mp hrest).2 hback
    | cons b rest =>
      rw [hrest] at h
      exact h.2

/-- The names of one chain end as those of another one. -/
theorem NamedPipeline.suffix {names names' : List String} (h : NamedPipeline E steps out names)
    (h' : NamedPipeline E steps out names') : names <:+ names' := by
  cases names with
  | nil => exact absurd h.line id
  | cons a l =>
    have hmem : a ∈ names' := (h'.streams a).mpr ((h.streams a).mp List.mem_cons_self)
    obtain ⟨front, back, rfl⟩ := List.append_of_mem hmem
    rw [h.line.eq_of_head (h'.line.of_append (List.cons_ne_nil a back))]
    exact List.suffix_append front (a :: back)

/-- The streaming steps are in one way a chain. -/
theorem NamedPipeline.unique {names names' : List String} (h : NamedPipeline E steps out names)
    (h' : NamedPipeline E steps out names') : names = names' :=
  (h.suffix h').eq_of_length_le (h'.suffix h).length_le

theorem NamedPipeline.not_tail {names : List String} (h : NamedPipeline E steps out names) :
    ¬ NamedTail E steps out := by
  intro htail
  obtain ⟨a, b, l, rfl⟩ : ∃ a b l, names = a :: b :: l := by
    match names, h.two with
    | a :: b :: l, _ => exact ⟨a, b, l, rfl⟩
  obtain rfl := (htail.streams a).mpr ((h.streams a).mp List.mem_cons_self)
  exact absurd (htail.last.symm.trans h.line.1) (by simp)

theorem NamedPipeline.not_unary {names : List String} (h : NamedPipeline E steps out names) :
    ¬ ∀ s ∈ steps, s.stream = false := by
  intro hunary
  obtain ⟨s, hs, -, hstream⟩ := (h.streams out).mp (List.mem_of_getLast? h.last)
  exact absurd hstream (by simp [hunary s hs])

end

/-- The names of the chains. -/
def chainNames (steps : List EnsembleStep) (chains : List Chain) : List (List String) :=
  chains.map fun chain => chain.nodes.map (nameAt steps)

section

variable {E : Externals} {steps : List EnsembleStep} {out : ℕ}

/-- What is accepted, by name: only `HeadDeclaredFirst` depends on the order of the steps. -/
theorem buildChains_names (hdag : DagRules E steps) (hacyclic : (depGraph E steps).Acyclic)
    (hout : out < steps.length) {chained : List (List String)} :
    (∃ chains, buildChains E steps out = .ok chains ∧ chainNames steps chains = chained) ↔
      (chained = [] ∧ ∀ s ∈ steps, s.stream = false) ∨
      (chained = [] ∧ NamedTail E steps (nameAt steps out)) ∨
      ∃ names, chained = [names] ∧ NamedPipeline E steps (nameAt steps out) names ∧
        HeadDeclaredFirst steps names := by
  have hunary : (∀ i, isStream steps i = false) ↔ ∀ s ∈ steps, s.stream = false := by
    rw [← all_unary_iff, List.isEmpty_iff, List.filter_eq_nil_iff]
    simp
  simp only [buildChains_eq_ok hdag hacyclic, hunary, isTail_iff_named hdag.nodup hout]
  constructor
  · rintro ⟨chains, ⟨rfl, h⟩ | ⟨rfl, h⟩ | ⟨nodes, rfl, hpipe, hfirst⟩, rfl⟩
    · exact .inl ⟨rfl, h⟩
    · exact .inr (.inl ⟨rfl, h⟩)
    · have hnodes : ∀ i ∈ nodes, i < steps.length :=
        fun i hi => isStream_lt ((hpipe.streams i).mp hi)
      refine .inr (.inr ⟨_, rfl, (isPipeline_iff_named hdag.nodup hout hnodes).mp hpipe, ?_⟩)
      rwa [HeadDeclaredFirst, filterMap_position_map hdag.nodup hnodes]
  · rintro (⟨rfl, h⟩ | ⟨rfl, h⟩ | ⟨names, rfl, hpipe, hfirst⟩)
    · exact ⟨[], .inl ⟨rfl, h⟩, rfl⟩
    · exact ⟨[], .inr (.inl ⟨rfl, h⟩), rfl⟩
    · have hnames : ∀ n ∈ names, n ∈ steps.map (·.name) := by
        intro n hn
        obtain ⟨s, hs, rfl, -⟩ := (hpipe.streams n).mp hn
        exact List.mem_map_of_mem hs
      have hmap := map_nameAt_filterMap hdag.nodup hnames
      have hnodes : ∀ i ∈ names.filterMap (position steps), i < steps.length := by
        intro i hi
        obtain ⟨n, -, hn⟩ := List.mem_filterMap.mp hi
        exact position_lt hn
      refine ⟨[⟨names.filterMap (position steps)⟩], .inr (.inr ⟨_, rfl, ?_, hfirst⟩), ?_⟩
      · rw [isPipeline_iff_named hdag.nodup hout hnodes, hmap]
        exact hpipe
      · simp [chainNames, hmap]

theorem exists_buildChains_iff (hdag : DagRules E steps) (hacyclic : (depGraph E steps).Acyclic)
    (hout : out < steps.length) : (∃ chains, buildChains E steps out = .ok chains) ↔
      (∀ s ∈ steps, s.stream = false) ∨ NamedTail E steps (nameAt steps out) ∨
      ∃ names, NamedPipeline E steps (nameAt steps out) names ∧ HeadDeclaredFirst steps names := by
  constructor
  · rintro ⟨chains, h⟩
    rcases (buildChains_names hdag hacyclic hout).mp ⟨chains, h, rfl⟩ with ⟨-, h⟩ | ⟨-, h⟩ |
      ⟨names, -, h⟩
    · exact .inl h
    · exact .inr (.inl h)
    · exact .inr (.inr ⟨names, h⟩)
  · intro h
    have hnames : ∃ chained, ∃ chains,
        buildChains E steps out = .ok chains ∧ chainNames steps chains = chained := by
      simp only [buildChains_names hdag hacyclic hout]
      rcases h with h | h | ⟨names, h⟩
      · exact ⟨[], .inl ⟨rfl, h⟩⟩
      · exact ⟨[], .inr (.inl ⟨rfl, h⟩)⟩
      · exact ⟨[names], .inr (.inr ⟨names, rfl, h⟩)⟩
    obtain ⟨-, chains, h, -⟩ := hnames
    exact ⟨chains, h⟩

/-- There is no chain where the streaming steps are none, and otherwise the chain is theirs. -/
theorem chainNames_of_ok (hdag : DagRules E steps) (hacyclic : (depGraph E steps).Acyclic)
    (hout : out < steps.length) {chains : List Chain} (h : buildChains E steps out = .ok chains) :
    (chainNames steps chains = [] ∧ ∀ names, ¬ NamedPipeline E steps (nameAt steps out) names) ∨
      ∃ names, chainNames steps chains = [names] ∧
        NamedPipeline E steps (nameAt steps out) names := by
  rcases (buildChains_names hdag hacyclic hout).mp ⟨chains, h, rfl⟩ with ⟨hnil, hall⟩ |
    ⟨hnil, htail⟩ | ⟨names, hone, hpipe, -⟩
  · exact .inl ⟨hnil, fun names hpipe => hpipe.not_unary hall⟩
  · exact .inl ⟨hnil, fun names hpipe => hpipe.not_tail htail⟩
  · exact .inr ⟨names, hone, hpipe⟩

end

/-- **The order of the file.** Two orders of the same steps, with the same output step, are accepted
alike exactly when, if the streaming steps are a chain, its head stands before its middle in both or
in neither. Where both are accepted the chains have the same names. -/
theorem chains_permuted_iff (E : Externals) (order : IterOrder String)
    (steps steps' : List EnsembleStep) (hdag : validateDag E order steps = .ok ())
    (hperm : steps.Perm steps') (out out' : ℕ) (hout : out < steps.length)
    (hout' : out' < steps'.length) (hname : nameAt steps out = nameAt steps' out') :
    (((∃ chains, buildChains E steps out = .ok chains) ↔
        ∃ chains, buildChains E steps' out' = .ok chains) ↔
      ∀ names, NamedPipeline E steps (nameAt steps out) names →
        (HeadDeclaredFirst steps names ↔ HeadDeclaredFirst steps' names)) ∧
    ∀ chains chains', buildChains E steps out = .ok chains →
      buildChains E steps' out' = .ok chains' →
        chainNames steps chains = chainNames steps' chains' := by
  obtain ⟨hrules, hacyclic⟩ := validateDag_eq_ok.mp hdag
  have hrules' := hrules.of_perm hperm
  have hacyclic' := acyclic_of_perm hacyclic hperm
  have hback {names : List String} (h : NamedPipeline E steps' (nameAt steps' out') names) :
      NamedPipeline E steps (nameAt steps out) names := hname ▸ h.of_perm hperm.symm
  refine ⟨?_, fun chains chains' h h' => ?_⟩
  · rw [exists_buildChains_iff hrules hacyclic hout, exists_buildChains_iff hrules' hacyclic' hout',
      ← hname]
    have hunary : (∀ s ∈ steps', s.stream = false) ↔ ∀ s ∈ steps, s.stream = false :=
      forall_congr' fun s => by rw [hperm.mem_iff]
    have htail : NamedTail E steps' (nameAt steps out) ↔ NamedTail E steps (nameAt steps out) :=
      ⟨.of_perm hperm.symm, .of_perm hperm⟩
    have hpipe (names : List String) : NamedPipeline E steps' (nameAt steps out) names ↔
        NamedPipeline E steps (nameAt steps out) names :=
      ⟨.of_perm hperm.symm, .of_perm hperm⟩
    simp only [hunary, htail, hpipe]
    constructor
    · intro h names hnames
      -- the streaming steps are this chain, so the order of it alone decides
      have hiff (steps₁ : List EnsembleStep) : ((∀ s ∈ steps, s.stream = false) ∨
          NamedTail E steps (nameAt steps out) ∨
          ∃ names, NamedPipeline E steps (nameAt steps out) names ∧
            HeadDeclaredFirst steps₁ names) ↔ HeadDeclaredFirst steps₁ names := by
        constructor
        · rintro (hall | htail | ⟨names', hnames', hfirst⟩)
          · exact absurd hall hnames.not_unary
          · exact absurd htail hnames.not_tail
          · exact hnames.unique hnames' ▸ hfirst
        · exact fun hfirst => .inr (.inr ⟨names, hnames, hfirst⟩)
      rwa [hiff, hiff] at h
    · intro h
      refine or_congr_right (or_congr_right (exists_congr fun names => ?_))
      exact and_congr_right fun hnames => h names hnames
  · obtain ⟨hnil, hno⟩ | ⟨names, hone, hpipe⟩ := chainNames_of_ok hrules hacyclic hout h
    · obtain ⟨hnil', -⟩ | ⟨names', -, hpipe'⟩ := chainNames_of_ok hrules' hacyclic' hout' h'
      · rw [hnil, hnil']
      · exact absurd (hback hpipe') (hno names')
    · obtain ⟨-, hno'⟩ | ⟨names', hone', hpipe'⟩ := chainNames_of_ok hrules' hacyclic' hout' h'
      · exact absurd (hname ▸ hpipe.of_perm hperm) (hno' names)
      · rw [hone, hone', hpipe.unique (hback hpipe')]

/-! ### Three streaming steps -/

/-- A streaming step with one input, or with none. -/
def streamStep (name : String) (ref : Option String) : EnsembleStep where
  name := name
  model := "m"
  version := none
  inputs := (ref.map (IndexMap.empty.insert "x")).getD .empty
  stream := true
  forwardHeaders := []
  passthrough := false
  params := .empty
  timeoutSecs := none
  onError := .fail
  retries := 0
  outputsDecl := none
  when := none

/-- The chain from `a` over `b` to `c`, in the order that is given. -/
def streamSteps (order : List (String × Option String)) : List EnsembleStep :=
  order.map fun e => streamStep e.1 e.2

/-- The steps in the order of the chain. -/
def chainOrder : List EnsembleStep :=
  streamSteps [("a", none), ("b", some "$a"), ("c", some "$b")]

/-- The middle of the chain comes first. -/
def middleFirst : List EnsembleStep :=
  streamSteps [("b", some "$a"), ("a", none), ("c", some "$b")]

/-- The end of the chain comes first. -/
def lastFirst : List EnsembleStep :=
  streamSteps [("c", some "$b"), ("a", none), ("b", some "$a")]

theorem chainOrder_sound : ReferredOnce plainExternals chainOrder 0 1 ∧
    ReferredOnce plainExternals chainOrder 1 2 ∧ Unreferred plainExternals chainOrder 2 := by
  have h := (buildChains_sound plainExternals .listed chainOrder 2 rfl).1 [⟨[0, 1, 2]⟩] rfl
  obtain ⟨hnil, -⟩ | ⟨hnil, -⟩ | ⟨nodes, hnodes, -, -, hnext, -, hlast⟩ := h
  · cases hnil
  · cases hnil
  · obtain rfl : nodes = [0, 1, 2] := by simpa using hnodes.symm
    exact ⟨hnext 0 0 1 rfl rfl, hnext 1 1 2 rfl rfl, hlast⟩

theorem lastFirst_same_chain : buildChains plainExternals chainOrder 2 = .ok [⟨[0, 1, 2]⟩] ∧
    buildChains plainExternals lastFirst 0 = .ok [⟨[1, 2, 0]⟩] ∧
    chainNames chainOrder [⟨[0, 1, 2]⟩] = chainNames lastFirst [⟨[1, 2, 0]⟩] := by
  have hperm : chainOrder.Perm lastFirst := by
    refine List.Perm.map _ ?_
    decide
  refine ⟨rfl, rfl, ?_⟩
  exact (chains_permuted_iff plainExternals .listed chainOrder lastFirst rfl hperm 2 0 (by decide)
    (by decide) rfl).2 _ _ rfl rfl

/-- With the middle of the chain before its head, the walk from the head meets a visited step. -/
theorem middle_first_rejected :
    validateDag plainExternals .listed chainOrder = .ok () ∧ chainOrder.Perm middleFirst ∧
      nameAt chainOrder 2 = nameAt middleFirst 2 ∧
      buildChains plainExternals chainOrder 2 = .ok [⟨[0, 1, 2]⟩] ∧
      buildChains plainExternals middleFirst 2 =
        .error (.config "pipeline chains share step 'c' (P-R4)") := by
  have hperm : chainOrder.Perm middleFirst := by
    refine List.Perm.map _ ?_
    decide
  exact ⟨rfl, hperm, rfl, rfl, rfl⟩

end Ensemble

end LiteServer
