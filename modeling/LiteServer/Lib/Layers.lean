import Mathlib.Data.List.Basic

/-!
# Layers

A schedule in layers: the elements of one layer may run in any order, and what an element relates
to is done before its layer begins. `Layered R done layers` says so for a schedule that starts with
the elements of `done` behind it.

## Main results

* `layered_of_before` — from the positions of the elements
* `Layered.filterMap` — a renaming that keeps the relation keeps the schedule, and may drop
  elements nothing else relates to
* `Layered.take` — a schedule may stop early
-/

namespace LiteServer

variable {α β : Type*} {R : α → α → Prop}

variable (R) in
/-- What an element of a layer relates to is done before the layer. -/
def Layered : (α → Prop) → List (List α) → Prop
  | _, [] => True
  | done, layer :: layers =>
    (∀ i ∈ layer, ∀ j, R i j → done j) ∧ Layered (fun j => done j ∨ j ∈ layer) layers

namespace Layered

variable {done : α → Prop} {layers : List (List α)}

theorem mono {done' : α → Prop} (h : Layered R done layers) (hdone : ∀ j, done j → done' j) :
    Layered R done' layers := by
  induction layers generalizing done done' with
  | nil => trivial
  | cons layer layers ih =>
    refine ⟨fun i hi j hij => hdone j (h.1 i hi j hij), ih h.2 fun j hj => ?_⟩
    exact hj.imp (hdone j) id

theorem take (h : Layered R done layers) (k : ℕ) : Layered R done (layers.take k) := by
  induction layers generalizing done k with
  | nil => simpa using h
  | cons layer layers ih =>
    cases k with
    | zero => trivial
    | succ k => exact ⟨h.1, ih h.2 k⟩

/-- What an element of layer `k` relates to is in the layers before it. -/
theorem mem_take (h : Layered R done layers) {k : ℕ} {layer : List α}
    (hk : layers[k]? = some layer) {i j : α} (hi : i ∈ layer) (hij : R i j) :
    done j ∨ j ∈ (layers.take k).flatten := by
  induction layers generalizing done k with
  | nil => simp at hk
  | cons first layers ih =>
    cases k with
    | zero =>
      obtain rfl : first = layer := by simpa using hk
      exact .inl (h.1 i hi j hij)
    | succ k =>
      rw [List.take_succ_cons, List.flatten_cons, List.mem_append]
      rw [List.getElem?_cons_succ] at hk
      exact or_assoc.mp (ih h.2 hk)

theorem filterMap {S : β → β → Prop} {done' : β → Prop} {f : α → Option β}
    (h : Layered R done layers)
    (hS : ∀ v i j, f v = some i → S i j → ∃ u, f u = some j ∧ R v u)
    (hdone : ∀ u j, f u = some j → done u → done' j) :
    Layered S done' (layers.map (·.filterMap f)) := by
  induction layers generalizing done done' with
  | nil => trivial
  | cons layer layers ih =>
    constructor
    · intro i hi j hij
      obtain ⟨v, hv, hvi⟩ := List.mem_filterMap.mp hi
      obtain ⟨u, huj, hvu⟩ := hS v i j hvi hij
      exact hdone u j huj (h.1 v hv u hvu)
    · refine ih h.2 fun u j huj hu => ?_
      exact hu.imp (hdone u j huj) fun hmem => List.mem_filterMap.mpr ⟨u, hmem, huj⟩

/-- Elements that nothing else relates to may be left out. -/
theorem filter {p : α → Bool} (h : Layered R done layers)
    (hp : ∀ i j, p i = true → R i j → p j = true) :
    Layered R done (layers.map (·.filter p)) := by
  have hguard : ∀ v i, (Option.guard p v = some i ↔ v = i ∧ p v = true) := fun v i => by simp
  have hmap : Layered R done (layers.map (·.filterMap (Option.guard p))) := by
    refine h.filterMap ?_ fun u j huj hu => ((hguard u j).mp huj).1 ▸ hu
    intro v i j hvi hij
    obtain ⟨rfl, hv⟩ := (hguard v i).mp hvi
    exact ⟨j, (hguard j j).mpr ⟨rfl, hp v j hv hij⟩, hij⟩
  simpa only [List.filterMap_eq_filter] using hmap

theorem filter_nonempty (h : Layered R done layers) :
    Layered R done (layers.filter (!·.isEmpty)) := by
  induction layers generalizing done with
  | nil => trivial
  | cons layer layers ih =>
    cases layer with
    | nil => exact ih (h.2.mono fun j hj => hj.resolve_right List.not_mem_nil)
    | cons i layer => exact ⟨h.1, ih h.2⟩

end Layered

theorem layered_of_before {done : α → Prop} {layers : List (List α)}
    (h : ∀ pre layer post, layers = pre ++ layer :: post →
      ∀ i ∈ layer, ∀ j, R i j → done j ∨ j ∈ pre.flatten) : Layered R done layers := by
  induction layers generalizing done with
  | nil => trivial
  | cons layer layers ih =>
    constructor
    · intro i hi j hij
      simpa using h [] layer layers rfl i hi j hij
    · refine ih fun pre next post hsplit i hi j hij => ?_
      have := h (layer :: pre) next post (by rw [hsplit]; rfl) i hi j hij
      rwa [List.flatten_cons, List.mem_append, ← or_assoc] at this

end LiteServer
