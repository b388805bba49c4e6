import Mathlib.Data.List.Basic
import Mathlib.Logic.Function.Basic

/-!
# Step systems

Concurrent code is modelled as one state and a partial step function: `step s a` is the state
after the indivisible access `a`, or `none` when `a` cannot happen in `s`. An interleaving is then
a list of accesses, and a statement about every interleaving is a statement about every reachable
state.

## Guards

`ReachUnder G` collects the states of the runs whose every step meets the guard `G`, a condition
on the state *before* the step and on the access. With the trivial guard it is plain
reachability. Guards are how a race is delimited: the guard names the access that must not land
in the window, and the invariant is proved for all the runs that respect it.

## Main results

* `ReachUnder.invariant` — an invariant of the guarded step is an invariant of the guarded runs
* `reachUnder_of_runUnder` — a schedule that evaluates to a state witnesses its reachability
-/

namespace LiteServer

/-- A machine driven by a scheduler: an initial state and a partial step function. -/
structure StepSystem (σ α : Type*) where
  /-- The state before any access. -/
  init : σ
  /-- The state after an access, `none` when the access is not enabled. -/
  step : σ → α → Option σ

namespace StepSystem

variable {σ α : Type*} (M : StepSystem σ α)

/-- The states reached by the runs whose every step meets `G`. -/
inductive ReachUnder (G : σ → α → Prop) : σ → Prop
  | init : ReachUnder G M.init
  | step {s s' : σ} {a : α} :
      ReachUnder G s → G s a → M.step s a = some s' → ReachUnder G s'

/-- The states reached by any run at all. -/
def Reach : σ → Prop := M.ReachUnder fun _ _ => True

variable {M} {G : σ → α → Prop}

variable {P : σ → Prop}

/-- **The invariant rule.** What holds initially and is kept by every guarded step holds in every
state of every guarded run. -/
theorem ReachUnder.invariant (h0 : P M.init)
    (hstep : ∀ s a s', G s a → M.step s a = some s' → P s → P s') {s : σ} (h : M.ReachUnder G s) :
    P s := by
  induction h with
  | init => exact h0
  | step _ hg hs ih => exact hstep _ _ _ hg hs ih

variable (M G)

/-- Follow a schedule, checking the guard before every access. -/
def runUnder [∀ s a, Decidable (G s a)] : σ → List α → Option σ
  | s, [] => some s
  | s, a :: as => if G s a then (M.step s a).bind fun s' => runUnder s' as else none

variable {M G}

variable {as : List α}

theorem reachUnder_of_runUnder [∀ s a, Decidable (G s a)] :
    ∀ {s s' : σ}, M.ReachUnder G s → M.runUnder G s as = some s' → M.ReachUnder G s' := by
  induction as with
  | nil =>
    intro s s' hs h
    simp only [runUnder, Option.some.injEq] at h
    exact h ▸ hs
  | cons a as ih =>
    intro s s' hs h
    simp only [runUnder] at h
    split at h
    · rename_i hg
      obtain ⟨t, ht, hrun⟩ := Option.bind_eq_some_iff.mp h
      exact ih (hs.step hg ht) hrun
    · exact absurd h (by simp)

/-- A schedule all of whose accesses meet another guard, whatever the state. -/
theorem reachUnder_of_runUnder_forall [∀ s a, Decidable (G s a)] {G' : σ → α → Prop}
    (hG : ∀ a ∈ as, ∀ s, G' s a) :
    ∀ {s s' : σ}, M.ReachUnder G' s → M.runUnder G s as = some s' → M.ReachUnder G' s' := by
  induction as with
  | nil =>
    intro s s' hs h
    simp only [runUnder, Option.some.injEq] at h
    exact h ▸ hs
  | cons a as ih =>
    intro s s' hs h
    simp only [runUnder] at h
    split at h
    · obtain ⟨t, ht, hrun⟩ := Option.bind_eq_some_iff.mp h
      have hstep := hs.step (hG a List.mem_cons_self s) ht
      exact ih (fun b hb => hG b (List.mem_cons_of_mem a hb)) hstep hrun
    · exact absurd h (by simp)

/-- A schedule whose last state satisfies `p` reaches a state that satisfies `p`. -/
theorem exists_reachUnder_of_runUnder [∀ s a, Decidable (G s a)] {p : σ → Bool} (as : List α)
    (h : (M.runUnder G M.init as).any p = true) : ∃ s, M.ReachUnder G s ∧ p s = true := by
  cases hrun : M.runUnder G M.init as with
  | none => simp [hrun] at h
  | some s => exact ⟨s, reachUnder_of_runUnder .init hrun, by simpa [hrun] using h⟩

/-- A weaker guard admits more runs. -/
theorem ReachUnder.mono {G' : σ → α → Prop} (hG : ∀ s a, G s a → G' s a) {s : σ}
    (h : M.ReachUnder G s) : M.ReachUnder G' s := by
  induction h with
  | init => exact .init
  | step _ hg hs ih => exact ih.step (hG _ _ hg) hs

theorem ReachUnder.reach {s : σ} (h : M.ReachUnder G s) : M.Reach s :=
  h.mono fun _ _ _ => trivial

end StepSystem

end LiteServer
