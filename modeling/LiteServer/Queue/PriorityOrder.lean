import LiteServer.Queue.Drain
import Mathlib.Data.List.Nodup
import Mathlib.Order.Lattice

/-!
# Priorities can only be lowered

`item_priority` clamps the client's header at zero, so no item has a higher priority than one
without the header, and the heap breaks ties by the sequence number of the push. An earlier item
is overtaken only by a later one of strictly higher priority, hence never when it has the default.

The pushes of a run are numbered by their place in `accepted`, and the answers of `recv` are
described by the list of these numbers. The sequence number in the heap is the number of the push
modulo `2 ^ 64`, so this holds for the first `2 ^ 64` pushes; the counter then starts again at
zero, and the next item overtakes whatever is in the heap with its priority.
-/

namespace LiteServer

namespace Queue

open VersionQueue (plainItem)

/-! ### The greatest element -/

section PopMax

variable {α : Type*}

/-- `before` is the order of a key, so what does not beat the best does not beat a better one. -/
theorem not_before_trans {x y z : OrdItem α} (hyx : y.before x = false)
    (hzy : z.before y = false) : z.before x = false := by
  simp only [OrdItem.before, Bool.or_eq_false_iff, Bool.and_eq_false_iff, decide_eq_false_iff_not,
    beq_eq_false_iff_ne] at *
  omega

theorem not_before_of_before {x y : OrdItem α} (h : y.before x = true) : x.before y = false := by
  simp only [OrdItem.before, Bool.or_eq_true, Bool.and_eq_true, decide_eq_true_eq, beq_iff_eq,
    Bool.or_eq_false_iff, Bool.and_eq_false_iff, decide_eq_false_iff_not,
    beq_eq_false_iff_ne] at *
  omega

theorem popMax_max {heap rest : List (OrdItem α)} {x : OrdItem α}
    (h : popMax heap = some (x, rest)) : ∀ y ∈ rest, y.before x = false := by
  induction heap generalizing x rest with
  | nil => simp [popMax] at h
  | cons z zs ih =>
    simp only [popMax] at h
    split at h
    · rename_i hnone
      cases h
      simp [popMax_eq_none_iff.mp hnone]
    · rename_i y others hpop
      split at h <;> rename_i hbefore <;> cases h
      · intro w hw
        rcases List.mem_cons.mp hw with rfl | hw
        · exact not_before_of_before hbefore
        · exact ih hpop w hw
      · rw [Bool.not_eq_true] at hbefore
        intro w hw
        rcases List.mem_cons.mp ((popMax_perm hpop).mem_iff.mp hw) with rfl | hw
        · exact hbefore
        · exact not_before_trans hbefore (ih hpop w hw)

end PopMax

/-! ### The order of the answers -/

namespace Channel

variable {α : Type*} {prio : α → Int} {s s' : Channel α} {order : List ℕ} {a : ChannelAction α}

/-- The answers of `recv` are the pushes `order`, and what is in the heap are the others. -/
structure InOrder (prio : α → Int) (s : Channel α) (order : List ℕ) : Prop where
  delivered : s.delivered.map some = order.map (s.accepted[·]?)
  tagged : ∀ x ∈ s.heap, x.seq ∉ order ∧ s.accepted[x.seq]? = some x.item ∧
    x.priority = prio x.item
  waiting : ∀ j < s.accepted.length, j ∉ order → ∃ x ∈ s.heap, x.seq = j
  distinct : (s.heap.map (·.seq)).Nodup
  once : order.Nodup
  seq : s.seq = s.accepted.length % 2 ^ 64
  /-- Whoever is answered while an earlier push waits has the strictly higher priority. -/
  fair : ∀ pre i post, order = pre ++ i :: post → ∀ j < i, j ∉ pre →
    ∀ x y, s.accepted[i]? = some x → s.accepted[j]? = some y → prio y < prio x

theorem InOrder.lt_length (h : InOrder prio s order) {i : ℕ} (hi : i ∈ order) :
    i < s.accepted.length := by
  have hmem : s.accepted[i]? ∈ s.delivered.map some :=
    h.delivered ▸ List.mem_map.mpr ⟨i, hi, rfl⟩
  obtain ⟨x, -, hx⟩ := List.mem_map.mp hmem
  exact (List.getElem?_eq_some_iff.mp hx.symm).1

theorem InOrder.trySend {item : α} (h : InOrder prio s order)
    (hlen : (s.trySend item (prio item)).accepted.length ≤ 2 ^ 64) :
    InOrder prio (s.trySend item (prio item)) order := by
  unfold Channel.trySend at hlen ⊢
  split at hlen
  · rwa [if_pos ‹_›]
  · rw [if_neg ‹_›]
    have hlt : s.accepted.length < 2 ^ 64 := by
      simp only [List.length_append, List.length_singleton] at hlen
      omega
    have hseq : s.seq = s.accepted.length := h.seq.trans (Nat.mod_eq_of_lt hlt)
    have hold : ∀ {i : ℕ}, i < s.accepted.length →
        (s.accepted ++ [item])[i]? = s.accepted[i]? := List.getElem?_append_left
    have hheap : ∀ x ∈ s.heap, x.seq < s.accepted.length := fun x hx =>
      (List.getElem?_eq_some_iff.mp (h.tagged x hx).2.1).1
    refine ⟨?_, fun x hx => ?_, fun j hj hnot => ?_, ?_, h.once, ?_, ?_⟩
    · rw [h.delivered]
      exact List.map_congr_left fun i hi => (hold (h.lt_length hi)).symm
    · rcases List.mem_cons.mp hx with rfl | hx
      · refine ⟨fun hmem => ?_, by simp [hseq], rfl⟩
        exact absurd (h.lt_length hmem) (by simp [hseq])
      · obtain ⟨hnot, hget, hprio⟩ := h.tagged x hx
        exact ⟨hnot, (hold (hheap x hx)).trans hget, hprio⟩
    · rcases Nat.lt_succ_iff_lt_or_eq.mp (by simpa using hj) with hj | rfl
      · obtain ⟨x, hx, hxj⟩ := h.waiting j hj hnot
        exact ⟨x, List.mem_cons_of_mem _ hx, hxj⟩
      · exact ⟨_, List.mem_cons_self .., hseq⟩
    · rw [List.map_cons, List.nodup_cons]
      refine ⟨fun hmem => ?_, h.distinct⟩
      obtain ⟨x, hx, hxs⟩ := List.mem_map.mp hmem
      exact absurd (hheap x hx) (by simp only at hxs; omega)
    · simp [hseq]
    · intro pre i post hsplit j hj hnot x y hx hy
      have hi : i < s.accepted.length := h.lt_length (by simp [hsplit])
      exact h.fair pre i post hsplit j hj hnot x y (hold hi ▸ hx) (hold (hj.trans hi) ▸ hy)

/-- Popping answers the push that no waiting one beats. -/
theorem InOrder.pop (h : InOrder prio s order) : ∃ order', InOrder prio s.pop order' := by
  unfold Channel.pop
  split
  · rename_i x rest hpop
    have hperm := popMax_perm hpop
    obtain ⟨hnot, hget, hprio⟩ := h.tagged x (hperm.mem_iff.mpr (List.mem_cons_self ..))
    have hrest : ∀ y ∈ rest, y ∈ s.heap := fun y hy =>
      hperm.mem_iff.mpr (List.mem_cons_of_mem _ hy)
    have hnodup : ((x :: rest).map (·.seq)).Nodup := (hperm.map _).nodup_iff.mp h.distinct
    rw [List.map_cons] at hnodup
    refine ⟨order ++ [x.seq], ?_, fun y hy => ?_, fun j hj hj' => ?_, hnodup.of_cons, ?_, h.seq,
      ?_⟩
    · simp [h.delivered, hget]
    · obtain ⟨hy', hrestOf⟩ := h.tagged y (hrest y hy)
      refine ⟨?_, hrestOf⟩
      simp only [List.mem_append, List.mem_singleton, not_or]
      refine ⟨hy', fun heq => (List.nodup_cons.mp hnodup).1 ?_⟩
      exact List.mem_map.mpr ⟨y, hy, heq⟩
    · simp only [List.mem_append, List.mem_singleton, not_or] at hj'
      obtain ⟨y, hy, rfl⟩ := h.waiting j hj hj'.1
      rcases List.mem_cons.mp (hperm.mem_iff.mp hy) with rfl | hy
      · exact absurd rfl hj'.2
      · exact ⟨y, hy, rfl⟩
    · exact List.nodup_append.mpr ⟨h.once, List.pairwise_singleton _ _, fun i hi j hj heq =>
        hnot (List.mem_singleton.mp hj ▸ heq ▸ hi)⟩
    · intro pre i post hsplit j hj hnotj v w hv hw
      rcases List.eq_nil_or_concat post with rfl | ⟨post', last, rfl⟩
      · -- the push answered now: an earlier one that still waits does not beat it
        obtain ⟨rfl, hi⟩ := List.append_inj' hsplit rfl
        obtain rfl : x.seq = i := by simpa using hi
        obtain ⟨y, hy, rfl⟩ := h.waiting j (hj.trans (List.getElem?_eq_some_iff.mp hget).1) hnotj
        have hyrest : y ∈ rest := by
          rcases List.mem_cons.mp (hperm.mem_iff.mp hy) with rfl | hy
          · exact absurd hj (lt_irrefl _)
          · exact hy
        have hbefore := popMax_max hpop y hyrest
        obtain ⟨-, hgety, hprioy⟩ := h.tagged y (hrest y hyrest)
        obtain rfl : x.item = v := Option.some.inj (hget.symm.trans hv)
        obtain rfl : y.item = w := Option.some.inj (hgety.symm.trans hw)
        rw [← hprio, ← hprioy]
        simp only [OrdItem.before, Bool.or_eq_false_iff, Bool.and_eq_false_iff,
          decide_eq_false_iff_not, beq_eq_false_iff_ne] at hbefore
        omega
      · have hsplit' : order ++ [x.seq] = (pre ++ i :: post') ++ [last] := by simp [hsplit]
        obtain ⟨horder, -⟩ := List.append_inj' hsplit' rfl
        exact h.fair pre i post' horder j hj hnotj v w hv hw
  · exact ⟨order, h.delivered, h.tagged, h.waiting, h.distinct, h.once, h.seq, h.fair⟩

/-- The parts of the channel that only a push or a pop changes. -/
structure SameItems (s s' : Channel α) : Prop where
  heap : s'.heap = s.heap
  seq : s'.seq = s.seq
  accepted : s'.accepted = s.accepted
  delivered : s'.delivered = s.delivered

/-- An access pushes, pops, or leaves the items alone. -/
theorem step_items (hs : s.step a = some s') :
    (∃ item p, a = .trySend item p ∧ s' = s.trySend item p) ∨ s' = s.pop ∨ SameItems s s' := by
  cases a with
  | trySend item p =>
    obtain ⟨-, rfl⟩ := step_trySend.mp hs
    exact .inl ⟨item, p, rfl, rfl⟩
  | pop =>
    simp only [Channel.step] at hs
    split at hs <;> cases hs
    exact .inr (.inl rfl)
  | clone | notify | drop | notifyClose =>
    simp only [Channel.step, Option.ite_none_right_eq_some, Option.some.injEq] at hs
    obtain ⟨-, rfl⟩ := hs
    exact .inr (.inr ⟨rfl, rfl, rfl, rfl⟩)
  | call | load | cancel =>
    simp only [Channel.step] at hs
    split at hs <;> cases hs <;> exact .inr (.inr ⟨rfl, rfl, rfl, rfl⟩)
  | wake =>
    simp only [Channel.step] at hs
    split at hs
    · split at hs <;> cases hs
      exact .inr (.inr ⟨rfl, rfl, rfl, rfl⟩)
    · cases hs

/-- Every access keeps the order. -/
theorem InOrder.step (hprio : ∀ item p, a = .trySend item p → p = prio item)
    (hs : s.step a = some s') (hlen : s'.accepted.length ≤ 2 ^ 64) (h : InOrder prio s order) :
    ∃ order', InOrder prio s' order' := by
  rcases step_items hs with ⟨item, p, rfl, rfl⟩ | rfl | ⟨hheap, hseq, haccepted, hdelivered⟩
  · obtain rfl := hprio item p rfl
    exact ⟨order, h.trySend hlen⟩
  · exact h.pop
  · obtain ⟨hd, ht, hw, hn, ho, hsq, hf⟩ := h
    rw [← haccepted] at hd ht hw hsq hf
    rw [← hheap] at ht hw hn
    exact ⟨order, hdelivered ▸ hd, ht, hw, hn, ho, hseq.trans hsq, hf⟩

theorem accepted_length_le_of_step (hs : s.step a = some s') :
    s.accepted.length ≤ s'.accepted.length := by
  rcases step_items hs with ⟨item, p, -, rfl⟩ | rfl | h
  · unfold Channel.trySend
    split <;> simp
  · unfold Channel.pop
    split <;> exact le_refl _
  · exact h.accepted ▸ le_refl _

end Channel

/-! ### What a header can do -/

/-- The channel of `try_submit`: every push is made with the item's own priority. -/
def OwnPriority : ChannelAction QueueItem → Prop
  | .trySend item p => p = itemPriority item
  | _ => True

instance : DecidablePred OwnPriority
  | .trySend item p => inferInstanceAs (Decidable (p = itemPriority item))
  | .clone | .notify | .drop | .notifyClose | .call | .pop | .load | .wake | .cancel =>
    isTrue trivial

theorem itemPriority_le_zero (item : QueueItem) : itemPriority item ≤ 0 := by
  unfold itemPriority
  cases (item.header "x-lite-priority").bind parseI32 with
  | none => exact le_refl _
  | some p => exact min_le_right ..

/-- No header, an unparsable one, or one that is not negative. -/
theorem itemPriority_eq_zero {item : QueueItem}
    (h : ∀ p, (item.header "x-lite-priority").bind parseI32 = some p → 0 ≤ p) :
    itemPriority item = 0 := by
  unfold itemPriority
  cases hp : (item.header "x-lite-priority").bind parseI32 with
  | none => rfl
  | some p => exact min_eq_right (h p hp)

theorem inOrder_of_reachUnder {cap : ℕ} {s : Channel QueueItem}
    (h : (Channel.system QueueItem cap).ReachUnder (fun _ a => OwnPriority a) s)
    (hlen : s.accepted.length ≤ 2 ^ 64) : ∃ order, Channel.InOrder itemPriority s order := by
  induction h with
  | init =>
    exact ⟨[], rfl, by simp [Channel.system, priorityChannel],
      by simp [Channel.system, priorityChannel], by simp [Channel.system, priorityChannel],
      List.nodup_nil, rfl, by simp⟩
  | step _ hg hs ih =>
    obtain ⟨order, horder⟩ := ih ((Channel.accepted_length_le_of_step hs).trans hlen)
    exact horder.step (by rintro item p rfl; exact hg) hs hlen

/-- **A client can only lower its priority.** Number the pushes of a run. As long as there are at
most `2 ^ 64` of them, `recv` answers each push at most once, and when it answers push `i` it has
answered every earlier push `j` whose header is absent, unparsable or not negative, and every
earlier one with the same effective priority as `i`. -/
theorem priority_only_lowers (cap : ℕ) (s : Channel QueueItem)
    (h : (Channel.system QueueItem cap).ReachUnder (fun _ a => OwnPriority a) s)
    (hlen : s.accepted.length ≤ 2 ^ 64) :
    ∃ order : List ℕ, order.Nodup ∧ s.delivered.map some = order.map (s.accepted[·]?) ∧
      ∀ pre i post, order = pre ++ i :: post → ∀ j < i, ∀ x y, s.accepted[i]? = some x →
        s.accepted[j]? = some y →
        (∀ p, (y.header "x-lite-priority").bind parseI32 = some p → 0 ≤ p) ∨
          itemPriority y = itemPriority x → j ∈ pre := by
  obtain ⟨order, horder⟩ := inOrder_of_reachUnder h hlen
  refine ⟨order, horder.once, horder.delivered, fun pre i post hsplit j hj x y hx hy hdefault => ?_⟩
  by_contra hnot
  have hlt := horder.fair pre i post hsplit j hj hnot x y hx hy
  rcases hdefault with hheader | heq
  · rw [itemPriority_eq_zero hheader] at hlt
    exact absurd (itemPriority_le_zero x) (not_le.mpr hlt)
  · omega

/-- An item with one `x-lite-priority` header. -/
def prioritised (uid value : String) : QueueItem :=
  ⟨uid, [], some { headers := [("x-lite-priority", value)] }, 0, false⟩

/-- A plain item is pushed, then one that asks for priority 100: the plain one is answered first. -/
theorem priority_only_lowers_two :
    ∃ s, (Channel.system QueueItem 4).ReachUnder (fun _ a => OwnPriority a) s ∧
      s.accepted = [plainItem, prioritised "b" "100"] ∧ s.delivered = s.accepted ∧
      ∃ order : List ℕ, order.Nodup ∧ s.delivered.map some = order.map (s.accepted[·]?) := by
  obtain ⟨s, hs, hp⟩ := StepSystem.exists_reachUnder_of_runUnder
    (M := Channel.system QueueItem 4) (G := fun _ a => OwnPriority a)
    (p := fun s => s.accepted == [plainItem, prioritised "b" "100"] && s.delivered == s.accepted)
    [.trySend plainItem 0, .notify, .trySend (prioritised "b" "100") 0, .notify, .call, .pop,
      .call, .pop] (by decide +kernel)
  simp only [Bool.and_eq_true, beq_iff_eq] at hp
  obtain ⟨order, honce, hdelivered, -⟩ := priority_only_lowers 4 s hs (by rw [hp.1]; decide)
  exact ⟨s, hs, hp.1, hp.2, order, honce, hdelivered⟩

/-! ### The counter starts again -/

/-- One producer and the consumer, both between two calls. -/
structure Steady (s : Channel QueueItem) : Prop where
  reach : (Channel.system QueueItem 4).ReachUnder (fun _ a => OwnPriority a) s
  cap : s.cap = 4
  senders : s.senders = 1
  pushing : s.pushing = 0
  recv : s.recv = .idle ∨ ∃ r, s.recv = .returned r

variable {s : Channel QueueItem}

/-- The producer sends an item of the default priority. -/
theorem Steady.send (h : Steady s) (item : QueueItem) (hprio : itemPriority item = 0)
    (hroom : s.heap.length < 4) :
    ∃ s', Steady s' ∧ s'.heap = ⟨0, s.seq, item⟩ :: s.heap ∧ s'.seq = (s.seq + 1) % 2 ^ 64 ∧
      s'.accepted = s.accepted ++ [item] := by
  have hfull : s.full = false := by simpa [Channel.full, h.cap] using hroom
  have hpush : (Channel.system QueueItem 4).ReachUnder (fun _ a => OwnPriority a)
      (s.trySend item 0) :=
    h.reach.step (a := ChannelAction.trySend item 0) hprio.symm
      (by simp [Channel.system, Channel.step, h.pushing, h.senders])
  have hnotify : (Channel.system QueueItem 4).ReachUnder (fun _ a => OwnPriority a)
      { s.trySend item 0 with pushing := 0, permit := true } :=
    hpush.step (a := ChannelAction.notify) trivial
      (by simp [Channel.system, Channel.step, Channel.trySend, hfull, h.pushing])
  refine ⟨_, ⟨hnotify, ?_, ?_, rfl, ?_⟩, ?_, ?_, ?_⟩
  all_goals simp only [Channel.trySend, hfull, Bool.false_eq_true, if_false]
  exacts [h.cap, h.senders, h.recv]

/-- The consumer receives. -/
theorem Steady.answer (h : Steady s) {x : OrdItem QueueItem} {rest : List (OrdItem QueueItem)}
    (hpop : popMax s.heap = some (x, rest)) :
    ∃ s', Steady s' ∧ s'.heap = rest ∧ s'.seq = s.seq ∧ s'.accepted = s.accepted ∧
      s'.recv = .returned (some x.item) := by
  have hcall : (Channel.system QueueItem 4).ReachUnder (fun _ a => OwnPriority a)
      { s with recv := .atPop } :=
    h.reach.step (a := ChannelAction.call) trivial
      (by rcases h.recv with hr | ⟨r, hr⟩ <;> simp [Channel.system, Channel.step, hr])
  have hanswer : (Channel.system QueueItem 4).ReachUnder (fun _ a => OwnPriority a)
      (Channel.pop { s with recv := .atPop }) :=
    hcall.step (a := ChannelAction.pop) trivial rfl
  refine ⟨_, ⟨hanswer, ?_, ?_, ?_, .inr ⟨some x.item, ?_⟩⟩, ?_, ?_, ?_, ?_⟩
  all_goals simp only [Channel.pop, hpop]
  exacts [h.cap, h.senders, h.pushing]

/-- Items can be sent and received one by one for any time. -/
theorem exists_steady (k : ℕ) :
    ∃ s, Steady s ∧ s.heap = [] ∧ s.seq = k % 2 ^ 64 := by
  induction k with
  | zero => exact ⟨priorityChannel 4, ⟨.init, rfl, rfl, rfl, .inl rfl⟩, rfl, rfl⟩
  | succ k ih =>
    obtain ⟨s, hs, hheap, hseq⟩ := ih
    obtain ⟨s₁, hs₁, hheap₁, hseq₁, -⟩ := hs.send plainItem (by decide) (by simp [hheap])
    rw [hheap] at hheap₁
    obtain ⟨s₂, hs₂, hheap₂, hseq₂, -⟩ := hs₁.answer (by rw [hheap₁]; rfl)
    refine ⟨s₂, hs₂, hheap₂, ?_⟩
    rw [hseq₂, hseq₁, hseq, Nat.mod_add_mod]

/-- **The order is lost when the counter starts again.** After `2 ^ 64 - 1` pushes that have all
been answered, two items of the default priority are pushed. The second one gets sequence number
zero and is answered first. -/
theorem priority_order_wraps :
    ∃ s, (Channel.system QueueItem 4).ReachUnder (fun _ a => OwnPriority a) s ∧
      ∃ earlier, s.accepted = earlier ++ [plainItem, prioritised "b" "0"] ∧
        s.recv = .returned (some (prioritised "b" "0")) ∧ s.heap.map (·.item) = [plainItem] := by
  obtain ⟨s, hs, hheap, hseq⟩ := exists_steady (2 ^ 64 - 1)
  obtain ⟨s₁, hs₁, hheap₁, hseq₁, hacc₁⟩ :=
    hs.send plainItem (by decide) (by simp [hheap])
  obtain ⟨s₂, hs₂, hheap₂, -, hacc₂⟩ :=
    hs₁.send (prioritised "b" "0") (by decide +kernel) (by simp [hheap₁, hheap])
  rw [hheap₁, hseq₁, hseq, hheap] at hheap₂
  obtain ⟨s₃, hs₃, hheap₃, -, hacc₃, hrecv₃⟩ := hs₂.answer (by rw [hheap₂]; rfl)
  exact ⟨s₃, hs₃.reach, s.accepted, by simp [hacc₃, hacc₂, hacc₁], hrecv₃, by rw [hheap₃]; rfl⟩

end Queue

end LiteServer
