import LiteServer.Lib.StepSystem
import LiteServer.Message

/-!
# The streaming pipeline

A pipeline chain of `k` streaming steps is a head, whose worker stream is opened first, and `k - 1`
consumers. Each consumer is a task that reads its upstream channel, opens one sub-stream per chunk,
and forwards the sub-stream's chunks into its downstream channel, which is the next consumer's
upstream. The last one writes the tail channel that the client reads. Channels hold 64 frames.

Consumer `i` reads channel `i` and writes channel `i + 1`. Channel `0` is the head's stream. The
worker streams, the client and the expiry of the bounds are the environment's.

## Ends of a consumer

`ended` records why a consumer stopped: it saw the end of its upstream with every sub-stream clean
(`clean`), something of its own failed (`failed`), it passed an upstream `Error` frame on
(`relayed`), or its downstream was gone (`abandoned`). A consumer synthesizes `Done` exactly when
its end is `clean`.

## The window

A failed consumer announces its failure with an `Error` frame and then drops its sender. Two of
these announcements are best effort: `try_send` of a locally generated frame is lost on a full
channel, and the bounded send of a worker's `Error` frame is lost when the bound expires, which it
does at once when the deadline has already passed. The next consumer then finds its upstream
closed, which is what it finds after a normal end. `losesReport` is such an announcement.

## Main results

* `done_only_when_clean` — in every run without a lost report, a `Done` on the tail channel means
  that every consumer ended `clean`
-/

namespace LiteServer

namespace Ensemble

/-- A `StreamResponse`, by its payload. -/
inductive Frame where
  | chunk (data : Bytes)
  | done
  | error (message : String)
  /-- Any other payload, or none. -/
  | other
  deriving DecidableEq, Repr

/-- Which bound of a hop fired. -/
inductive RecvElapsed where
  | deadline
  | idle
  deriving DecidableEq, Repr

/-- The program point of a consumer. -/
inductive HopPc where
  /-- At `upstream.recv()`. -/
  | recv
  /-- Opening the sub-stream of a chunk. -/
  | opening (data : Bytes)
  /-- In `forward_stream`, waiting for the sub-stream. -/
  | forwarding
  /-- In `forward_stream`, in the bounded send of a chunk. -/
  | sending (data : Bytes)
  /-- In `forward_stream`, in the bounded send of the worker's `Error` frame. -/
  | relaying (message : String)
  /-- In the unbounded send of an `Error` frame. -/
  | reporting (message : String)
  /-- In the unbounded send of the synthesized `Done`. -/
  | finishing
  /-- Cancelling the worker before the return. -/
  | unwinding
  /-- Returned: both channel ends are dropped. -/
  | exited
  deriving DecidableEq, Repr

/-- Why a consumer stopped. -/
inductive HopEnd where
  | clean
  | failed
  | relayed
  | abandoned
  deriving DecidableEq, Repr

/-- A consumer. -/
structure Hop where
  pc : HopPc := .recv
  ended : Option HopEnd := none
  deriving DecidableEq, Repr

/-- The consumer still reads or forwards. -/
def HopPc.running : HopPc → Bool
  | .recv | .opening _ | .forwarding | .sending _ => true
  | _ => false

/-- The consumer has yet to announce its failure. -/
def HopPc.announcing : HopPc → Bool
  | .relaying _ | .reporting _ => true
  | _ => false

/-- What is fixed: the consumers, the names of the chain's steps, and the JSON check. -/
structure PipelineConfig where
  consumers : ℕ
  stepName : ℕ → String
  /-- The parse error of a chunk that is not valid JSON. -/
  jsonError : Bytes → Option String

/-- The chain with its channels and its client. -/
structure Pipeline where
  hops : ℕ → Hop
  chans : ℕ → List Frame
  headClosed : Bool
  clientOpen : Bool
  /-- The frames the client has received. -/
  delivered : List Frame

/-- Capacity of the channels between hops and of the tail channel. -/
def channelCapacity : ℕ := 64

/-- `spawn_chain` after the head's stream is open. -/
def spawnChain : Pipeline where
  hops := fun _ => {}
  chans := fun _ => []
  headClosed := false
  clientOpen := true
  delivered := []

/-- The steps of the consumers and of their environment. -/
inductive PipelineAction where
  /-- The head's worker streams a frame. -/
  | head (frame : Frame)
  | headClose
  /-- A consumer takes the next frame of its upstream, or finds it closed. -/
  | recv (i : ℕ)
  /-- `execute_stream_step` returns. -/
  | opened (i : ℕ) (result : Except AppError Unit)
  /-- The sub-stream yields a frame. -/
  | sub (i : ℕ) (frame : Frame)
  | subClose (i : ℕ)
  /-- A bound fires in `recv_chunk` or in the send of a chunk. -/
  | elapsed (i : ℕ) (which : RecvElapsed)
  /-- The send of a chunk completes. -/
  | put (i : ℕ)
  /-- The send of the worker's `Error` frame completes. -/
  | relay (i : ℕ)
  /-- The bound of the send of the worker's `Error` frame expires. -/
  | relayElapsed (i : ℕ)
  /-- The unbounded send of an `Error` frame completes. -/
  | report (i : ℕ)
  /-- The unbounded send of the `Done` completes. -/
  | finish (i : ℕ)
  | exit (i : ℕ)
  /-- The client receives a frame. -/
  | client
  | disconnect

namespace Pipeline

/-- The receiver of a channel is alive. -/
def receiverAlive (m : ℕ) (s : Pipeline) (c : ℕ) : Bool :=
  if c < m then (s.hops c).pc ≠ .exited else s.clientOpen

/-- The sender of a channel is alive. -/
def senderAlive (s : Pipeline) : ℕ → Bool
  | 0 => !s.headClosed
  | i + 1 => (s.hops i).pc ≠ .exited

/-- A channel has no free slot. -/
def full (s : Pipeline) (c : ℕ) : Bool := channelCapacity ≤ (s.chans c).length

/-- Put a frame into a channel. -/
def push (s : Pipeline) (c : ℕ) (frame : Frame) : Pipeline :=
  { s with chans := Function.update s.chans c (s.chans c ++ [frame]) }

/-- Move a consumer. -/
def setHop (s : Pipeline) (i : ℕ) (hop : Hop) : Pipeline :=
  { s with hops := Function.update s.hops i hop }

/-- `tx.try_send`: lost on a full or closed channel. -/
def trySend (m : ℕ) (s : Pipeline) (c : ℕ) (frame : Frame) : Pipeline :=
  if s.receiverAlive m c && !s.full c then s.push c frame else s

/-- A completed `tx.send`: at once with an error when the receiver is gone, otherwise when there is
a slot. -/
def send (m : ℕ) (s : Pipeline) (c : ℕ) (frame : Frame) : Option Pipeline :=
  if s.receiverAlive m c = false then some s
  else if s.full c then none
  else some (s.push c frame)

/-- The message of a hop bound that fired. -/
def elapsedMessage (config : PipelineConfig) (i : ℕ) : RecvElapsed → String
  | .deadline => "pipeline step '" ++ config.stepName (i + 1) ++ "' exceeded its timeout (D35)"
  | .idle => "pipeline step '" ++ config.stepName (i + 1) ++ "' idle timeout"

/-- What a consumer does with a frame of its upstream. -/
def consume (config : PipelineConfig) (s : Pipeline) (i : ℕ) : Frame → Hop
  | .chunk data =>
    if s.receiverAlive config.consumers (i + 1) = false then ⟨.exited, some .abandoned⟩
    else match config.jsonError data with
      | some e =>
        ⟨.reporting (AppError.internal ("pipeline chunk from '" ++ config.stepName i ++
          "' is not valid JSON: " ++ e)).toText, some .failed⟩
      | none => ⟨.opening data, none⟩
  | .done => ⟨.finishing, some .clean⟩
  | .error message => ⟨.reporting message, some .relayed⟩
  | .other => ⟨.recv, none⟩

/-- One step of a consumer or of the environment. -/
def step (config : PipelineConfig) (s : Pipeline) : PipelineAction → Option Pipeline
  | .head frame =>
    if s.headClosed = false ∧ s.full 0 = false then some (s.push 0 frame) else none
  | .headClose => some { s with headClosed := true }
  | .recv i =>
    if i < config.consumers ∧ (s.hops i).pc = .recv then
      match s.chans i with
      | frame :: rest =>
        some { s.setHop i (s.consume config i frame) with
          chans := Function.update s.chans i rest }
      | [] => if s.senderAlive i then none else some (s.setHop i ⟨.finishing, some .clean⟩)
    else none
  | .opened i result =>
    match (s.hops i).pc with
    | .opening _ =>
      match result with
      | .ok () => some (s.setHop i ⟨.forwarding, none⟩)
      | .error e => some (s.setHop i ⟨.reporting e.toText, some .failed⟩)
    | _ => none
  | .sub i frame =>
    match (s.hops i).pc with
    | .forwarding =>
      match frame with
      | .chunk data => some (s.setHop i ⟨.sending data, none⟩)
      | .error message => some (s.setHop i ⟨.relaying message, some .failed⟩)
      | .done => some (s.setHop i ⟨.recv, none⟩)
      | .other => some s
    | _ => none
  | .subClose i =>
    match (s.hops i).pc with
    | .forwarding => some (s.setHop i ⟨.recv, none⟩)
    | _ => none
  | .elapsed i which =>
    match (s.hops i).pc with
    | .forwarding | .sending _ =>
      some ((s.trySend config.consumers (i + 1) (.error (elapsedMessage config i which))).setHop i
        ⟨.unwinding, some .failed⟩)
    | _ => none
  | .put i =>
    match (s.hops i).pc with
    | .sending data =>
      if s.receiverAlive config.consumers (i + 1) = false then
        some (s.setHop i ⟨.unwinding, some .abandoned⟩)
      else
        (s.send config.consumers (i + 1) (.chunk data)).map fun s' =>
          s'.setHop i ⟨.forwarding, none⟩
    | _ => none
  | .relay i =>
    match (s.hops i).pc with
    | .relaying message =>
      (s.send config.consumers (i + 1) (.error message)).map fun s' =>
        s'.setHop i ⟨.unwinding, (s.hops i).ended⟩
    | _ => none
  | .relayElapsed i =>
    match (s.hops i).pc with
    | .relaying _ => some (s.setHop i ⟨.unwinding, (s.hops i).ended⟩)
    | _ => none
  | .report i =>
    match (s.hops i).pc with
    | .reporting message =>
      (s.send config.consumers (i + 1) (.error message)).map fun s' =>
        s'.setHop i ⟨.exited, (s.hops i).ended⟩
    | _ => none
  | .finish i =>
    match (s.hops i).pc with
    | .finishing =>
      (s.send config.consumers (i + 1) .done).map fun s' => s'.setHop i ⟨.exited, (s.hops i).ended⟩
    | _ => none
  | .exit i =>
    match (s.hops i).pc with
    | .unwinding => some (s.setHop i ⟨.exited, (s.hops i).ended⟩)
    | _ => none
  | .client =>
    match s.clientOpen, s.chans config.consumers with
    | true, frame :: rest =>
      some { s with
        chans := Function.update s.chans config.consumers rest
        delivered := s.delivered ++ [frame] }
    | _, _ => none
  | .disconnect => some { s with clientOpen := false }

/-- All interleavings of one chain with its environment. -/
def system (config : PipelineConfig) : StepSystem Pipeline PipelineAction where
  init := spawnChain
  step := step config

/-- A consumer that is not the last one fails and its `Error` frame does not reach the live next
consumer: the channel is full at the `try_send`, or the bounded send expires. -/
def losesReport (config : PipelineConfig) (s : Pipeline) : PipelineAction → Bool
  | .elapsed i _ =>
    decide (i + 1 < config.consumers) && s.receiverAlive config.consumers (i + 1) && s.full (i + 1)
  | .relayElapsed i =>
    decide (i + 1 < config.consumers) && s.receiverAlive config.consumers (i + 1)
  | _ => false

/-! ### What a run without a lost report keeps -/

/-- An announced failure stays visible to the next consumer, and an end counts as clean only on
top of clean ends. -/
structure Honest (m : ℕ) (s : Pipeline) : Prop where
  running : ∀ i, (s.hops i).pc.running = true ↔ (s.hops i).ended = none
  finishing : ∀ i, (s.hops i).pc = .finishing → (s.hops i).ended = some .clean
  done : ∀ i, .done ∈ s.chans (i + 1) → (s.hops i).ended = some .clean
  delivered : ∀ i, m = i + 1 → .done ∈ s.delivered → (s.hops i).ended = some .clean
  upstream : ∀ i, i + 1 < m → (s.hops (i + 1)).ended = some .clean →
    (s.hops i).ended = some .clean
  /-- The next consumer has stopped, or the frame is on its way to it. -/
  reported : ∀ i, i + 1 < m →
    (s.hops i).ended = some .failed ∨ (s.hops i).ended = some .relayed →
    (s.hops i).pc.announcing = true ∨ (s.hops (i + 1)).ended ≠ none ∨
      ∃ message, .error message ∈ s.chans (i + 1)
  abandoned : ∀ i, i + 1 < m → (s.hops i).ended = some .abandoned →
    (s.hops (i + 1)).pc = .exited

theorem honest_spawnChain (m : ℕ) : Honest m spawnChain where
  running := by simp [spawnChain, HopPc.running]
  finishing := by simp [spawnChain]
  done := by simp [spawnChain]
  delivered := by simp [spawnChain]
  upstream := by simp [spawnChain]
  reported := by simp [spawnChain]
  abandoned := by simp [spawnChain]

/-- What a consumer's move must respect. -/
structure HopMove (m : ℕ) (s : Pipeline) (i : ℕ) (hop : Hop) : Prop where
  running : hop.pc.running = true ↔ hop.ended = none
  finishing : hop.pc = .finishing → hop.ended = some .clean
  /-- An end is final. -/
  keeps : (s.hops i).ended = none ∨ hop.ended = (s.hops i).ended
  /-- A new clean end is on top of a clean one. -/
  clean : hop.ended = some .clean → (s.hops i).ended = none →
    ∀ j, i = j + 1 → (s.hops j).ended = some .clean
  reported : i + 1 < m → hop.ended = some .failed ∨ hop.ended = some .relayed →
    hop.pc.announcing = true ∨ (s.hops (i + 1)).ended ≠ none ∨
      ∃ message, .error message ∈ s.chans (i + 1)
  abandoned : i + 1 < m → hop.ended = some .abandoned → (s.hops (i + 1)).pc = .exited
  exited : (s.hops i).pc = .exited → hop.pc = .exited

section Honest

variable {m : ℕ} {s : Pipeline}

variable {i : ℕ}

theorem Honest.setHop (h : Honest m s) {hop : Hop} (hm : HopMove m s i hop) :
    Honest m (s.setHop i hop) := by
  have hi : (s.setHop i hop).hops i = hop := Function.update_self ..
  have hne : ∀ j, j ≠ i → (s.setHop i hop).hops j = s.hops j := fun j hj =>
    Function.update_of_ne hj ..
  -- an end that was there is there
  have hold : ∀ j e, (s.hops j).ended = some e → ((s.setHop i hop).hops j).ended = some e := by
    intro j e he
    by_cases hj : j = i
    · subst hj
      rw [hi]
      rcases hm.keeps with hnone | hsame
      · rw [hnone] at he
        cases he
      · exact hsame.trans he
    · rw [hne j hj]
      exact he
  refine ⟨fun j => ?_, fun j hfin => ?_, fun j hd => hold j _ (h.done j hd),
    fun j hj hd => hold j _ (h.delivered j hj hd), fun j hj hclean => ?_, fun j hj hend => ?_,
    fun j hj hend => ?_⟩
  · by_cases hj : j = i
    · subst hj
      rw [hi]
      exact hm.running
    · rw [hne j hj]
      exact h.running j
  · by_cases hj : j = i
    · subst hj
      rw [hi] at hfin ⊢
      exact hm.finishing hfin
    · rw [hne j hj] at hfin ⊢
      exact h.finishing j hfin
  · by_cases hji : j + 1 = i
    · subst hji
      rw [hi] at hclean
      cases hwas : (s.hops (j + 1)).ended with
      | none => exact hold j _ (hm.clean hclean hwas j rfl)
      | some e =>
        have hsame := hm.keeps.resolve_left (by simp [hwas])
        exact hold j _ (h.upstream j hj (hsame ▸ hclean))
    · rw [hne _ hji] at hclean
      exact hold j _ (h.upstream j hj hclean)
  · have hnext : (s.hops (j + 1)).ended ≠ none →
        ((s.setHop i hop).hops (j + 1)).ended ≠ none := by
      intro hsome
      obtain ⟨e, he⟩ := Option.ne_none_iff_exists'.mp hsome
      rw [hold _ e he]
      exact Option.some_ne_none e
    by_cases hji : j = i
    · subst hji
      rw [hi] at hend ⊢
      rcases hm.reported hj hend with hann | hnone | herr
      · exact .inl hann
      · exact .inr (.inl (hnext hnone))
      · exact .inr (.inr herr)
    · rw [hne j hji] at hend ⊢
      rcases h.reported j hj hend with hann | hnone | herr
      · exact .inl hann
      · exact .inr (.inl (hnext hnone))
      · exact .inr (.inr herr)
  · have hgone : (s.hops (j + 1)).pc = .exited := by
      by_cases hji : j = i
      · subst hji
        rw [hi] at hend
        exact hm.abandoned hj hend
      · rw [hne j hji] at hend
        exact h.abandoned j hj hend
    by_cases hji : j + 1 = i
    · subst hji
      rw [hi]
      exact hm.exited hgone
    · rw [hne _ hji]
      exact hgone

/-- A frame put into a channel; a `Done` only by a consumer with a clean end. -/
theorem Honest.push (h : Honest m s) (c : ℕ) (frame : Frame)
    (hdone : frame = .done → ∀ j, c = j + 1 → (s.hops j).ended = some .clean) :
    Honest m (s.push c frame) := by
  refine ⟨h.running, h.finishing, fun j hd => ?_, h.delivered, h.upstream, fun j hj hend => ?_,
    h.abandoned⟩
  · by_cases hc : j + 1 = c
    · subst hc
      simp only [Pipeline.push, Function.update_self, List.mem_append, List.mem_singleton] at hd
      rcases hd with hold | hnew
      · exact h.done j hold
      · exact hdone hnew.symm j rfl
    · simp only [Pipeline.push, ne_eq, hc, not_false_eq_true, Function.update_of_ne] at hd
      exact h.done j hd
  · rcases h.reported j hj hend with hann | hnone | ⟨message, herr⟩
    · exact .inl hann
    · exact .inr (.inl hnone)
    · refine .inr (.inr ⟨message, ?_⟩)
      by_cases hc : j + 1 = c
      · subst hc
        simp [Pipeline.push, herr]
      · simpa [Pipeline.push, hc] using herr

variable {c : ℕ} {frame : Frame} {rest : List Frame}

/-- A frame taken from a channel; an `Error` only by a consumer that stops with it. -/
theorem Honest.pop (h : Honest m s) (hc : s.chans c = frame :: rest)
    (herror : ∀ message, frame = .error message → c < m → (s.hops c).ended ≠ none) :
    Honest m { s with chans := Function.update s.chans c rest } := by
  refine ⟨h.running, h.finishing, fun j hd => h.done j ?_, h.delivered, h.upstream,
    fun j hj hend => ?_, h.abandoned⟩
  · by_cases hj : j + 1 = c
    · subst hj
      rw [hc]
      exact List.mem_cons_of_mem _ (by simpa using hd)
    · simpa [hj] using hd
  · rcases h.reported j hj hend with hann | hnone | ⟨message, herr⟩
    · exact .inl hann
    · exact .inr (.inl hnone)
    · by_cases hjc : j + 1 = c
      · subst hjc
        rw [hc] at herr
        rcases List.mem_cons.mp herr with hhead | htail
        · exact .inr (.inl (herror message hhead.symm hj))
        · exact .inr (.inr ⟨message, by simpa using htail⟩)
      · exact .inr (.inr ⟨message, by simpa [hjc] using herr⟩)

theorem exited_of_dead (hc : c < m) (hdead : s.receiverAlive m c = false) :
    (s.hops c).pc = .exited := by
  simpa [receiverAlive, hc] using hdead

theorem Honest.ended_of_exited (h : Honest m s) (hpc : (s.hops c).pc = .exited) :
    (s.hops c).ended ≠ none := by
  rw [ne_eq, ← h.running c, hpc]
  decide

variable {s' : Pipeline}

theorem send_cases (h : s.send m c frame = some s') :
    s.receiverAlive m c = false ∧ s' = s ∨ s' = s.push c frame := by
  unfold send at h
  split at h
  · rename_i hdead
    cases h
    exact .inl ⟨hdead, rfl⟩
  · split at h <;> cases h
    exact .inr rfl

/-- After a completed send of an `Error` frame the next consumer has stopped, or will see it. -/
theorem Honest.reported_of_send (h : Honest m s) {message : String}
    (hsend : s.send m (i + 1) (.error message) = some s') (hi : i + 1 < m) :
    (s'.hops (i + 1)).ended ≠ none ∨ ∃ message, .error message ∈ s'.chans (i + 1) := by
  rcases send_cases hsend with ⟨hdead, rfl⟩ | rfl
  · exact .inl (h.ended_of_exited (exited_of_dead hi hdead))
  · exact .inr ⟨message, by simp [Pipeline.push]⟩

theorem Honest.send (h : Honest m s) (hsend : s.send m c frame = some s')
    (hdone : frame = .done → ∀ j, c = j + 1 → (s.hops j).ended = some .clean) :
    Honest m s' ∧ s'.hops = s.hops := by
  rcases send_cases hsend with ⟨_, rfl⟩ | rfl
  · exact ⟨h, rfl⟩
  · exact ⟨h.push c frame hdone, rfl⟩

/-- The moves of a consumer that goes on, or that stops with something yet to announce. -/
theorem Honest.goOn (h : Honest m s) {hop : Hop} (hpc : (s.hops i).pc.running = true)
    (hrun : hop.pc.running = true ↔ hop.ended = none) (hfin : hop.pc ≠ .finishing)
    (hclean : hop.ended ≠ some .clean) (habandon : hop.ended ≠ some .abandoned)
    (hann : hop.ended ≠ none → hop.pc.announcing = true) : Honest m (s.setHop i hop) := by
  refine h.setHop ⟨hrun, fun hf => absurd hf hfin, .inl ((h.running i).mp hpc),
    fun hc => absurd hc hclean, fun _ hend => .inl (hann ?_), fun _ ha => absurd ha habandon,
    fun hx => ?_⟩
  · rcases hend with he | he <;> rw [he] <;> simp
  · rw [hx] at hpc
    cases hpc

/-- The last moves of a consumer that has stopped already. -/
theorem Honest.leave (h : Honest m s) {pc : HopPc} (hpc : (s.hops i).pc.running = false)
    (hrun : pc.running = false) (hfin : pc ≠ .finishing)
    (hexit : (s.hops i).pc = .exited → pc = .exited)
    (hrep : i + 1 < m → (s.hops i).ended = some .failed ∨ (s.hops i).ended = some .relayed →
      (s.hops (i + 1)).ended ≠ none ∨ ∃ message, .error message ∈ s.chans (i + 1)) :
    Honest m (s.setHop i ⟨pc, (s.hops i).ended⟩) := by
  have hsome : (s.hops i).ended ≠ none := by
    rw [ne_eq, ← h.running i, hpc]
    decide
  refine h.setHop ⟨by simp [hrun, hsome], fun hf => absurd hf hfin, .inr rfl,
    fun _ hnone => absurd hnone hsome, fun hi hend => .inr (hrep hi hend), h.abandoned i, hexit⟩

/-- The consumer finds the end of its upstream. -/
theorem Honest.finish_upstream (h : Honest m s) (hpc : (s.hops i).pc = .recv)
    (hup : ∀ j, i = j + 1 → (s.hops j).ended = some .clean) :
    Honest m (s.setHop i ⟨.finishing, some .clean⟩) := by
  refine h.setHop ⟨by simp [HopPc.running], fun _ => rfl,
    .inl ((h.running i).mp (by rw [hpc]; rfl)), fun _ _ => hup, by simp, by simp, by simp [hpc]⟩

/-- The upstream of a consumer that finds it closed has ended cleanly: a failure would have left
its frame, and an abandoned one would have found this consumer gone. -/
theorem Honest.clean_of_closed (h : Honest m s) {j : ℕ} (hj : j + 1 < m)
    (hpc : (s.hops (j + 1)).pc = .recv) (hgone : (s.hops j).pc = .exited)
    (hempty : s.chans (j + 1) = []) : (s.hops j).ended = some .clean := by
  have hnone : (s.hops (j + 1)).ended = none := (h.running _).mp (by rw [hpc]; rfl)
  have hlost : ¬ ((s.hops j).ended = some .failed ∨ (s.hops j).ended = some .relayed) := by
    intro hend
    rcases h.reported j hj hend with hann | hsome | ⟨message, herr⟩
    · rw [hgone] at hann
      cases hann
    · exact hsome hnone
    · rw [hempty] at herr
      cases herr
  cases hend : (s.hops j).ended with
  | none => exact absurd hend (h.ended_of_exited hgone)
  | some e =>
    cases e with
    | clean => rfl
    | failed => exact absurd (.inl hend) hlost
    | relayed => exact absurd (.inr hend) hlost
    | abandoned =>
      have hexit := h.abandoned j hj hend
      rw [hpc] at hexit
      cases hexit

variable {config : PipelineConfig}

theorem Honest.consume (h : Honest config.consumers s) (hpc : (s.hops i).pc = .recv)
    (hc : s.chans i = frame :: rest) :
    Honest config.consumers { s.setHop i (s.consume config i frame) with
      chans := Function.update s.chans i rest } := by
  have hrun : (s.hops i).pc.running = true := by rw [hpc]; rfl
  suffices hmove : Honest config.consumers (s.setHop i (s.consume config i frame)) by
    refine hmove.pop hc fun message herr _ => ?_
    subst herr
    simp [Pipeline.setHop, Pipeline.consume]
  cases frame with
  | chunk data =>
    simp only [Pipeline.consume]
    split
    · rename_i hdead
      exact h.setHop ⟨by simp [HopPc.running], by simp, .inl ((h.running i).mp hrun), by simp,
        by simp, fun hi _ => exited_of_dead hi hdead, fun _ => rfl⟩
    · split
      · exact h.goOn hrun (by simp [HopPc.running]) (by simp) (by simp) (by simp) fun _ => rfl
      · exact h.goOn hrun (by simp [HopPc.running]) (by simp) (by simp) (by simp) (by simp)
  | done =>
    refine h.finish_upstream hpc fun j hj => ?_
    subst hj
    exact h.done j (by rw [hc]; exact List.mem_cons_self)
  | error message =>
    exact h.goOn hrun (by simp [Pipeline.consume, HopPc.running]) (by simp [Pipeline.consume])
      (by simp [Pipeline.consume]) (by simp [Pipeline.consume]) fun _ => rfl
  | other =>
    exact h.goOn hrun (by simp [Pipeline.consume, HopPc.running]) (by simp [Pipeline.consume])
      (by simp [Pipeline.consume]) (by simp [Pipeline.consume]) (by simp [Pipeline.consume])

theorem Honest.recv (h : Honest config.consumers s)
    (hs : step config s (.recv i) = some s') : Honest config.consumers s' := by
  simp only [Pipeline.step, Option.ite_none_right_eq_some] at hs
  obtain ⟨⟨hi, hpc⟩, hs⟩ := hs
  split at hs
  · rename_i frame rest hc
    cases hs
    exact h.consume hpc hc
  · rename_i hempty
    split at hs <;> cases hs
    rename_i hgone
    refine h.finish_upstream hpc fun j hj => ?_
    subst hj
    exact h.clean_of_closed hi hpc (by simpa [senderAlive] using hgone) hempty

theorem Honest.opened {result : Except AppError Unit} (h : Honest config.consumers s)
    (hs : step config s (.opened i result) = some s') : Honest config.consumers s' := by
  simp only [Pipeline.step] at hs
  split at hs
  · rename_i hpc
    have hrun : (s.hops i).pc.running = true := by rw [hpc]; rfl
    split at hs <;> cases hs
    · exact h.goOn hrun (by simp [HopPc.running]) (by simp) (by simp) (by simp) (by simp)
    · exact h.goOn hrun (by simp [HopPc.running]) (by simp) (by simp) (by simp) fun _ => rfl
  · cases hs

theorem Honest.sub {frame : Frame} (h : Honest config.consumers s)
    (hs : step config s (.sub i frame) = some s') : Honest config.consumers s' := by
  simp only [Pipeline.step] at hs
  split at hs
  · rename_i hpc
    have hrun : (s.hops i).pc.running = true := by rw [hpc]; rfl
    split at hs <;> cases hs
    · exact h.goOn hrun (by simp [HopPc.running]) (by simp) (by simp) (by simp) (by simp)
    · exact h.goOn hrun (by simp [HopPc.running]) (by simp) (by simp) (by simp) fun _ => rfl
    · exact h.goOn hrun (by simp [HopPc.running]) (by simp) (by simp) (by simp) (by simp)
    · exact h
  · cases hs

/-- A consumer whose bound fires tries to announce it, and unwinds. -/
theorem Honest.unwind {which : RecvElapsed} (h : Honest config.consumers s)
    (hg : s.losesReport config (.elapsed i which) = false)
    (hrun : (s.hops i).pc.running = true) : Honest config.consumers
      ((s.trySend config.consumers (i + 1) (.error (elapsedMessage config i which))).setHop i
        ⟨.unwinding, some .failed⟩) := by
  have hmove : ∀ t : Pipeline, t.hops = s.hops → Honest config.consumers t →
      (i + 1 < config.consumers → (t.hops (i + 1)).ended ≠ none ∨
        ∃ message, .error message ∈ t.chans (i + 1)) →
      Honest config.consumers (t.setHop i ⟨.unwinding, some .failed⟩) := by
    intro t hhops ht hrep
    refine ht.setHop ⟨by simp [HopPc.running], by simp, .inl ?_, by simp,
      fun hi _ => .inr (hrep hi), by simp, fun hx => ?_⟩
    · exact (ht.running i).mp (by rw [hhops]; exact hrun)
    · rw [hhops] at hx
      rw [hx] at hrun
      cases hrun
  unfold trySend
  split
  · exact hmove _ rfl (h.push _ _ (by simp)) fun _ =>
      .inr ⟨elapsedMessage config i which, by simp [Pipeline.push]⟩
  · rename_i hlost
    refine hmove s rfl h fun hi => .inl (h.ended_of_exited ?_)
    refine exited_of_dead hi ?_
    -- the channel is not full, so the frame was refused by a dropped receiver
    simp only [losesReport, hi] at hg
    cases hal : s.receiverAlive config.consumers (i + 1) with
    | false => rfl
    | true =>
      have hfree : s.full (i + 1) = false := by simpa [hal] using hg
      simp [hal, hfree] at hlost

theorem Honest.elapsed {which : RecvElapsed} (h : Honest config.consumers s)
    (hg : s.losesReport config (.elapsed i which) = false)
    (hs : step config s (.elapsed i which) = some s') : Honest config.consumers s' := by
  simp only [Pipeline.step] at hs
  split at hs
  · rename_i hpc
    cases hs
    exact h.unwind hg (by rw [hpc]; rfl)
  · rename_i hpc
    cases hs
    exact h.unwind hg (by rw [hpc]; rfl)
  · cases hs

theorem Honest.put (h : Honest config.consumers s)
    (hs : step config s (.put i) = some s') : Honest config.consumers s' := by
  simp only [Pipeline.step] at hs
  split at hs
  · rename_i data hpc
    have hrun : (s.hops i).pc.running = true := by rw [hpc]; rfl
    split at hs
    · rename_i hdead
      cases hs
      exact h.setHop ⟨by simp [HopPc.running], by simp, .inl ((h.running i).mp hrun), by simp,
        by simp, fun hi _ => exited_of_dead hi hdead, by simp [hpc]⟩
    · obtain ⟨t, ht, rfl⟩ := Option.map_eq_some_iff.mp hs
      obtain ⟨hht, hhops⟩ := h.send ht (by simp)
      exact hht.goOn (by rw [hhops]; exact hrun) (by simp [HopPc.running]) (by simp) (by simp)
        (by simp) (by simp)
  · cases hs

theorem Honest.relay (h : Honest config.consumers s)
    (hs : step config s (.relay i) = some s') : Honest config.consumers s' := by
  simp only [Pipeline.step] at hs
  split at hs
  · rename_i message hpc
    obtain ⟨t, ht, rfl⟩ := Option.map_eq_some_iff.mp hs
    obtain ⟨hht, hhops⟩ := h.send ht (by simp)
    rw [← hhops]
    exact hht.leave (by rw [hhops, hpc]; rfl) rfl (by simp) (by simp [hhops, hpc])
      fun hi _ => h.reported_of_send ht hi
  · cases hs

theorem Honest.relayElapsed (h : Honest config.consumers s)
    (hg : s.losesReport config (.relayElapsed i) = false)
    (hs : step config s (.relayElapsed i) = some s') : Honest config.consumers s' := by
  simp only [Pipeline.step] at hs
  split at hs <;> cases hs
  rename_i hpc
  refine h.leave (by rw [hpc]; rfl) rfl (by simp) (by simp [hpc]) fun hi _ => .inl ?_
  refine h.ended_of_exited (exited_of_dead hi ?_)
  simpa [losesReport, hi] using hg

theorem Honest.report (h : Honest config.consumers s)
    (hs : step config s (.report i) = some s') : Honest config.consumers s' := by
  simp only [Pipeline.step] at hs
  split at hs
  · rename_i message hpc
    obtain ⟨t, ht, rfl⟩ := Option.map_eq_some_iff.mp hs
    obtain ⟨hht, hhops⟩ := h.send ht (by simp)
    rw [← hhops]
    exact hht.leave (by rw [hhops, hpc]; rfl) rfl (by simp) (fun _ => rfl)
      fun hi _ => h.reported_of_send ht hi
  · cases hs

theorem Honest.finish (h : Honest config.consumers s)
    (hs : step config s (.finish i) = some s') : Honest config.consumers s' := by
  simp only [Pipeline.step] at hs
  split at hs
  · rename_i hpc
    obtain ⟨t, ht, rfl⟩ := Option.map_eq_some_iff.mp hs
    have hclean := h.finishing i hpc
    obtain ⟨hht, hhops⟩ := h.send ht fun _ j hj => by
      obtain rfl : j = i := by omega
      exact hclean
    rw [← hhops]
    refine hht.leave (by rw [hhops, hpc]; rfl) rfl (by simp) (fun _ => rfl) fun hi hend => ?_
    rw [hhops, hclean] at hend
    simp at hend
  · cases hs

/-- **The step lemma.** -/
theorem Honest.step {a : PipelineAction} (h : Honest config.consumers s)
    (hg : s.losesReport config a = false) (hs : step config s a = some s') :
    Honest config.consumers s' := by
  cases a with
  | head frame =>
    simp only [Pipeline.step, Option.ite_none_right_eq_some, Option.some.injEq] at hs
    obtain ⟨_, rfl⟩ := hs
    exact h.push 0 frame (by simp)
  | headClose =>
    cases hs
    exact ⟨h.running, h.finishing, h.done, h.delivered, h.upstream, h.reported, h.abandoned⟩
  | recv i => exact h.recv hs
  | opened i result => exact h.opened hs
  | sub i frame => exact h.sub hs
  | subClose i =>
    simp only [Pipeline.step] at hs
    split at hs <;> cases hs
    rename_i hpc
    exact h.goOn (by rw [hpc]; rfl) (by simp [HopPc.running]) (by simp) (by simp) (by simp)
      (by simp)
  | elapsed i which => exact h.elapsed hg hs
  | put i => exact h.put hs
  | relay i => exact h.relay hs
  | relayElapsed i => exact h.relayElapsed hg hs
  | report i => exact h.report hs
  | finish i => exact h.finish hs
  | exit i =>
    simp only [Pipeline.step] at hs
    split at hs <;> cases hs
    rename_i hpc
    refine h.leave (by rw [hpc]; rfl) rfl (by simp) (fun _ => rfl) fun hi hend => ?_
    exact (h.reported i hi hend).resolve_left (by rw [hpc]; decide)
  | client =>
    simp only [Pipeline.step] at hs
    split at hs <;> cases hs
    rename_i frame rest _ hc
    have hpop := h.pop hc fun _ _ hlt => absurd hlt (Nat.lt_irrefl _)
    refine ⟨hpop.running, hpop.finishing, hpop.done, fun j hj hd => ?_, hpop.upstream,
      hpop.reported, hpop.abandoned⟩
    rcases List.mem_append.mp hd with hold | hnew
    · exact h.delivered j hj hold
    · refine h.done j ?_
      rw [← hj, hc, List.mem_singleton.mp hnew]
      exact List.mem_cons_self
  | disconnect =>
    cases hs
    exact ⟨h.running, h.finishing, h.done, h.delivered, h.upstream, h.reported, h.abandoned⟩

end Honest

variable {s : Pipeline}

theorem honest_of_reachUnder {config : PipelineConfig}
    (h : (system config).ReachUnder (fun s a => s.losesReport config a = false) s) :
    Honest config.consumers s :=
  h.invariant (honest_spawnChain _) fun _ _ _ hg hs hinv => hinv.step hg hs

/-- With a clean last consumer all of them are clean. -/
theorem Honest.all_clean {m : ℕ} (h : Honest m s) {n : ℕ} (hn : (s.hops n).ended = some .clean)
    (hm : n < m) : ∀ i ≤ n, (s.hops i).ended = some .clean := by
  induction n with
  | zero =>
    intro i hi
    obtain rfl : i = 0 := by omega
    exact hn
  | succ n ih =>
    intro i hi
    rcases Nat.lt_or_eq_of_le hi with hlt | rfl
    · exact ih (h.upstream n hm hn) (by omega) i (by omega)
    · exact hn

/-- **A failed pipeline does not look finished while no report is lost.** For every chain with at
least one consumer, in every run in which no consumer but the last fails with its `Error` frame
refused by the full channel of a live next consumer, or expired in the bounded send to it: once
the client has received a `Done`, every consumer has consumed its whole upstream with every
sub-stream ended cleanly, and none has failed. A chain of two steps has only the last consumer, so
there the condition always holds. -/
theorem done_only_when_clean (config : PipelineConfig) (s : Pipeline)
    (h : (system config).ReachUnder (fun s a => s.losesReport config a = false) s)
    (hdone : .done ∈ s.delivered) (hk : 0 < config.consumers) :
    ∀ i < config.consumers, (s.hops i).ended = some .clean := by
  obtain ⟨n, hn⟩ := Nat.exists_eq_succ_of_ne_zero (Nat.pos_iff_ne_zero.mp hk)
  have hhonest := honest_of_reachUnder h
  intro i hi
  exact hhonest.all_clean (hhonest.delivered n hn hdone) (by omega) i (by omega)

/-! ### Two runs -/

/-- A chain of three steps: two consumers. -/
def threeSteps : PipelineConfig := ⟨2, fun i => "step" ++ toString i, fun _ => none⟩

/-- One chunk goes through both consumers and the head ends. -/
theorem done_only_when_clean_two_consumers :
    ∃ s, (system threeSteps).ReachUnder (fun s a => s.losesReport threeSteps a = false) s ∧
      s.delivered = [.chunk [9], .done] ∧
      ∀ i < threeSteps.consumers, (s.hops i).ended = some .clean := by
  obtain ⟨s, hs, hp⟩ := StepSystem.exists_reachUnder_of_runUnder
    (M := system threeSteps) (G := fun s a => s.losesReport threeSteps a = false)
    (p := fun s => s.delivered == [.chunk [9], .done])
    [.head (.chunk [7]), .recv 0, .opened 0 (.ok ()), .sub 0 (.chunk [8]), .put 0, .sub 0 .done,
      .recv 1, .opened 1 (.ok ()), .sub 1 (.chunk [9]), .put 1, .subClose 1, .headClose, .recv 0,
      .finish 0, .recv 1, .finish 1, .client, .client] (by decide)
  have hdel : s.delivered = [.chunk [9], .done] := by simpa using hp
  exact ⟨s, hs, hdel, done_only_when_clean threeSteps s hs (by simp [hdel]) (by decide)⟩

/-- **A failed pipeline looks finished.** The worker of the middle step sends an `Error` frame and
the hop's deadline passes before the bounded send of it, which gives up at once. The middle
consumer returns, the last one finds its upstream closed, and the client gets a `Done`. -/
theorem failed_pipeline_sends_done :
    ∃ s, (system threeSteps).Reach s ∧ (s.hops 0).ended = some .failed ∧
      s.delivered = [.done] := by
  obtain ⟨s, hs, hp⟩ := StepSystem.exists_reachUnder_of_runUnder
    (M := system threeSteps) (G := fun _ _ => True)
    (p := fun s => (s.hops 0).ended == some .failed && s.delivered == [.done])
    [.head (.chunk [7]), .recv 0, .opened 0 (.ok ()), .sub 0 (.error "boom"), .relayElapsed 0,
      .exit 0, .recv 1, .finish 1, .client] (by decide)
  simp only [Bool.and_eq_true, beq_iff_eq] at hp
  exact ⟨s, hs, hp⟩

end Pipeline

end Ensemble

end LiteServer
