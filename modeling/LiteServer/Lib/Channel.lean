import Mathlib.Data.List.Basic

/-!
# Bounded channels

A bounded channel with one consumer, as its senders see it: a send that does not wait succeeds,
finds the channel full, or finds the receiver gone.
-/

namespace LiteServer

/-- A channel that holds at most `capacity` messages. -/
structure Chan (α : Type*) where
  capacity : ℕ
  /-- What the consumer has taken out, oldest first. -/
  received : List α
  /-- What waits in the channel, oldest first. -/
  buffer : List α
  receiverDropped : Bool
  capacity_pos : 0 < capacity
  buffer_le : buffer.length ≤ capacity
  deriving DecidableEq

namespace Chan

variable {α : Type*}

/-- A fresh channel; a depth of 0 is raised to 1. -/
def new (size : ℕ) : Chan α where
  capacity := max size 1
  received := []
  buffer := []
  receiverDropped := false
  capacity_pos := Nat.lt_of_lt_of_le Nat.zero_lt_one (Nat.le_max_right size 1)
  buffer_le := Nat.zero_le _

/-- The outcome of a send that does not wait. -/
inductive TrySend (α : Type*)
  | sent (c : Chan α)
  | full
  | closed

/-- Put a message in unless the receiver is gone or the channel is full. -/
def trySend (c : Chan α) (a : α) : TrySend α :=
  if c.receiverDropped then .closed
  else if h : c.buffer.length < c.capacity then
    .sent { c with buffer := c.buffer ++ [a], buffer_le := by simpa using Nat.succ_le_of_lt h }
  else .full

end Chan

end LiteServer
