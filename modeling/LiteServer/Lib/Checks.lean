import Mathlib.Data.List.Forall2

/-!
# Validators

A validator is a computation in `Except ε` that looks at its input in a fixed order and stops at
the first rule the input breaks. What a client of a validator needs is the inversion of a success:
which rules were met and which intermediate results were produced. This file has the early return
`rejectIf` and the inversion of the combinators validators are written with.

## Main results

* `bind_eq_ok` — a sequence succeeds when its first part does and the rest does on its result
* `forM_eq_ok` — a loop of checks succeeds exactly when every check does
* `mapM_eq_ok` — a fallible map succeeds exactly when it does so elementwise
* `foldlM_invariant`, `foldlM_of_mem` — what a successful step keeps, a successful fold keeps
* `ErrorsIn.bind`, `ErrorsIn.forM` — which errors a sequence and a loop of checks can stop with
-/

namespace LiteServer

namespace Checks

universe u

variable {ε : Type*} {α β σ : Type u}

/-- Stop with `e` when the input breaks the rule: `if c { return Err(e) }`. -/
def rejectIf (c : Bool) (e : ε) : Except ε Unit :=
  if c then .error e else .ok ()

@[simp]
theorem rejectIf_eq_ok {c : Bool} {e : ε} {u : Unit} : rejectIf c e = .ok u ↔ c = false := by
  cases c <;> simp [rejectIf]

/-- The value of an option, or the error that names its absence: `ok_or_else`. -/
def okOr (o : Option α) (e : ε) : Except ε α :=
  match o with
  | some a => .ok a
  | none => .error e

variable {a : α}

@[simp]
theorem okOr_eq_ok {o : Option α} {e : ε} : okOr o e = .ok a ↔ o = some a := by
  cases o <;> simp [okOr]

variable {f : α → Except ε β} {x : Except ε α}

theorem bind_eq_ok {b : β} : (x >>= f) = .ok b ↔ ∃ a, x = .ok a ∧ f a = .ok b := by
  cases x with
  | error e => simp [bind, Except.bind]
  | ok a => simp [bind, Except.bind]

theorem map_eq_ok {f : α → β} {b : β} : (f <$> x) = .ok b ↔ ∃ a, x = .ok a ∧ f a = b := by
  cases x with
  | error e => simp [Functor.map, Except.map]
  | ok a => simp [Functor.map, Except.map]

@[simp]
theorem pure_eq_ok {b : α} : (pure a : Except ε α) = .ok b ↔ a = b :=
  Except.ok.injEq a b ▸ Iff.rfl

variable {l : List α}

theorem forM_eq_ok {f : α → Except ε PUnit} {u : PUnit} :
    forM l f = .ok u ↔ ∀ x ∈ l, f x = .ok ⟨⟩ := by
  induction l with
  | nil => simp [pure, Except.pure]
  | cons x l ih =>
    rw [List.forM_cons, bind_eq_ok, List.forall_mem_cons]
    constructor
    · rintro ⟨_, hx, hl⟩
      exact ⟨hx, ih.mp hl⟩
    · rintro ⟨hx, hl⟩
      exact ⟨_, hx, ih.mpr hl⟩

variable {l' : List β}

theorem mapM_eq_ok : l.mapM f = .ok l' ↔ List.Forall₂ (fun a b => f a = .ok b) l l' := by
  induction l generalizing l' with
  | nil =>
    rw [List.mapM_nil, pure_eq_ok, List.forall₂_nil_left_iff]
    exact eq_comm
  | cons a l ih =>
    rw [List.mapM_cons, bind_eq_ok, List.forall₂_cons_left_iff]
    constructor
    · rintro ⟨b, hb, h⟩
      obtain ⟨bs, hbs, h⟩ := bind_eq_ok.mp h
      exact ⟨b, bs, hb, ih.mp hbs, (pure_eq_ok.mp h).symm⟩
    · rintro ⟨b, bs, hb, hbs, rfl⟩
      exact ⟨b, hb, bind_eq_ok.mpr ⟨bs, ih.mpr hbs, rfl⟩⟩

theorem mem_of_mapM (h : l.mapM f = .ok l') {b : β} (hb : b ∈ l') : ∃ a ∈ l, f a = .ok b := by
  induction mapM_eq_ok.mp h with
  | nil => exact absurd hb List.not_mem_nil
  | @cons a b' l l' hab hl ih =>
    rcases List.mem_cons.mp hb with rfl | hb
    · exact ⟨a, List.mem_cons_self, hab⟩
    · obtain ⟨a', ha', hab'⟩ := ih (mapM_eq_ok.mpr hl) hb
      exact ⟨a', List.mem_cons_of_mem a ha', hab'⟩

theorem exists_mapM (h : ∀ a ∈ l, ∃ b, f a = .ok b) : ∃ l', l.mapM f = .ok l' := by
  induction l with
  | nil => exact ⟨[], rfl⟩
  | cons a l ih =>
    obtain ⟨⟨b, hb⟩, hl⟩ := List.forall_mem_cons.mp h
    obtain ⟨bs, hbs⟩ := ih hl
    exact ⟨b :: bs, mapM_eq_ok.mpr (.cons hb (mapM_eq_ok.mp hbs))⟩

theorem getElem?_of_mapM (h : l.mapM f = .ok l') {i : ℕ} {a : α} (ha : l[i]? = some a) :
    ∃ b, l'[i]? = some b ∧ f a = .ok b := by
  induction mapM_eq_ok.mp h generalizing i with
  | nil => simp at ha
  | @cons a' b l l' hab hl ih =>
    cases i with
    | zero =>
      obtain rfl : a' = a := by simpa using ha
      exact ⟨b, rfl, hab⟩
    | succ i => exact ih (mapM_eq_ok.mpr hl) ha

variable {P : σ → Prop}

/-- **The fold rule.** -/
theorem foldlM_invariant {f : σ → α → Except ε σ}
    (hstep : ∀ s t, ∀ a ∈ l, f s a = .ok t → P s → P t) {s t : σ} (h : l.foldlM f s = .ok t)
    (hs : P s) : P t := by
  induction l generalizing s with
  | nil =>
    rw [List.foldlM_nil, pure_eq_ok] at h
    exact h ▸ hs
  | cons a l ih =>
    rw [List.foldlM_cons, bind_eq_ok] at h
    obtain ⟨s', hs', h⟩ := h
    refine ih (fun u v b hb => hstep u v b (List.mem_cons_of_mem a hb)) h ?_
    exact hstep s s' a List.mem_cons_self hs' hs

/-- An invariant of a walk over the numbers below `n`, which may speak of how far the walk is. -/
theorem foldlM_range_invariant {f : σ → ℕ → Except ε σ} {P : ℕ → σ → Prop} {n : ℕ}
    (hstep : ∀ k < n, ∀ s t, f s k = .ok t → P k s → P (k + 1) t) {s t : σ}
    (h : (List.range n).foldlM f s = .ok t) (hs : P 0 s) : P n t := by
  induction n generalizing t with
  | zero =>
    rw [List.range_zero, List.foldlM_nil, pure_eq_ok] at h
    exact h ▸ hs
  | succ n ih =>
    rw [List.range_succ, List.foldlM_append, bind_eq_ok] at h
    obtain ⟨u, hu, h⟩ := h
    rw [List.foldlM_cons, bind_eq_ok] at h
    obtain ⟨v, hv, h⟩ := h
    obtain rfl := pure_eq_ok.mp h
    exact hstep n (Nat.lt_succ_self n) u v hv
      (ih (fun k hk => hstep k (Nat.lt_succ_of_lt hk)) hu)

/-- A walk over the numbers below `n` through given states. -/
theorem foldlM_range {f : σ → ℕ → Except ε σ} {states : ℕ → σ} {n : ℕ}
    (hstep : ∀ k < n, f (states k) k = .ok (states (k + 1))) :
    (List.range n).foldlM f (states 0) = .ok (states n) := by
  induction n with
  | zero => rfl
  | succ n ih =>
    rw [List.range_succ, List.foldlM_append]
    refine bind_eq_ok.mpr ⟨states n, ih fun k hk => hstep k (Nat.lt_succ_of_lt hk), ?_⟩
    exact bind_eq_ok.mpr ⟨states (n + 1), hstep n (Nat.lt_succ_self n), rfl⟩

/-- What the step of one element establishes and every step keeps holds after a successful fold. -/
theorem foldlM_of_mem {f : σ → α → Except ε σ} (ha : a ∈ l) (hest : ∀ s t, f s a = .ok t → P t)
    (hstep : ∀ s t, ∀ b ∈ l, f s b = .ok t → P s → P t) {s t : σ} (h : l.foldlM f s = .ok t) :
    P t := by
  induction l generalizing s with
  | nil => exact absurd ha List.not_mem_nil
  | cons b l ih =>
    rw [List.foldlM_cons, bind_eq_ok] at h
    obtain ⟨s', hs', h⟩ := h
    have htail : ∀ u v, ∀ c ∈ l, f u c = .ok v → P u → P v :=
      fun u v c hc => hstep u v c (List.mem_cons_of_mem b hc)
    rcases List.mem_cons.mp ha with rfl | ha
    · exact foldlM_invariant htail h (hest s s' hs')
    · exact ih ha htail h

/-! ### Errors -/

/-- Every error of `x` is one of `P`. -/
def ErrorsIn (P : ε → Prop) (x : Except ε α) : Prop := ∀ e, x = .error e → P e

section

variable {P : ε → Prop}

theorem ErrorsIn.rejectIf {c : Bool} {e : ε} (h : P e) : ErrorsIn P (rejectIf c e) := by
  intro e' he
  cases c with
  | false => cases he
  | true =>
    obtain rfl := Except.error.inj he
    exact h

theorem ErrorsIn.okOr {o : Option α} {e : ε} (h : o = none → P e) : ErrorsIn P (okOr o e) := by
  intro e' he
  cases o with
  | some a => cases he
  | none =>
    obtain rfl := Except.error.inj he
    exact h rfl

theorem ErrorsIn.bind {x : Except ε α} {f : α → Except ε β} (hx : ErrorsIn P x)
    (hf : ∀ a, x = .ok a → ErrorsIn P (f a)) : ErrorsIn P (x >>= f) := by
  intro e he
  cases x with
  | error e' => exact hx e (by simpa [Bind.bind, Except.bind] using he)
  | ok a => exact hf a rfl e he

theorem ErrorsIn.forM {f : α → Except ε PUnit} {l : List α} (h : ∀ a ∈ l, ErrorsIn P (f a)) :
    ErrorsIn P (forM l f) := by
  induction l with
  | nil =>
    intro e he
    cases he
  | cons a l ih =>
    exact (h a List.mem_cons_self).bind fun _ _ => ih fun b hb => h b (List.mem_cons_of_mem a hb)

theorem ErrorsIn.foldlM {f : σ → α → Except ε σ} {l : List α} {s : σ}
    (h : ∀ s, ∀ a ∈ l, ErrorsIn P (f s a)) : ErrorsIn P (l.foldlM f s) := by
  induction l generalizing s with
  | nil =>
    intro e he
    cases he
  | cons a l ih =>
    exact (h s a List.mem_cons_self).bind fun _ _ =>
      ih fun s b hb => h s b (List.mem_cons_of_mem a hb)

end

end Checks

end LiteServer
