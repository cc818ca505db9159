import Mathlib.Data.List.Perm.Subperm

-- Bounded channels with one receiver. What has been sent waits in a queue until it is received, or until the
-- receiver is dropped, and what waits then is lost.

structure BoundedChannel (α : Type _) (capacity : Nat) where
  sent     : List α
  received : List α
  queue    : List α
  lost     : List α
  isOpen   : Bool
  fifo     : sent = received ++ queue ++ lost
  bounded  : queue.length ≤ capacity
  lossless : isOpen → lost = []
  closed   : ¬isOpen → queue = []

namespace BoundedChannel

def new : BoundedChannel α capacity where
  sent     := []
  received := []
  queue    := []
  lost     := []
  isOpen   := true
  fifo     := rfl
  bounded  := Nat.zero_le _
  lossless := fun _ => rfl
  closed   := fun _ => rfl

variable (channel : BoundedChannel α capacity)

-- Yields nothing if there is no room, or no receiver.
def trySend (a : α) : Option (BoundedChannel α capacity) :=
  if h : channel.isOpen ∧ channel.queue.length < capacity then
    some { channel with
      sent     := channel.sent ++ [a]
      queue    := channel.queue ++ [a]
      fifo     := by rw [channel.fifo, channel.lossless h.1]; simp
      bounded  := by rw [List.length_append]; exact h.2
      closed   := fun hc => absurd h.1 hc }
  else none

def tryRecv : Option (α × BoundedChannel α capacity) :=
  match h : channel.queue with
  | []        => none
  | a :: rest =>
    some (a, { channel with
      received := channel.received ++ [a]
      queue    := rest
      fifo     := by rw [channel.fifo, h]; simp
      bounded  := by have hb := channel.bounded; rw [h] at hb; exact Nat.le_of_succ_le hb
      closed   := fun hc => by have hq := channel.closed hc; rw [h] at hq; nomatch hq })

-- Receives all that waits.
def drain : BoundedChannel α capacity :=
  { channel with
    received := channel.received ++ channel.queue
    queue    := []
    fifo     := by rw [channel.fifo]; simp
    bounded  := Nat.zero_le _
    closed   := fun _ => rfl }

def close : BoundedChannel α capacity :=
  { channel with
    queue    := []
    lost     := channel.queue ++ channel.lost
    isOpen   := false
    fifo     := by rw [channel.fifo]; simp
    bounded  := Nat.zero_le _
    lossless := nofun
    closed   := fun _ => rfl }

variable {channel} {channel' : BoundedChannel α capacity} {a : α}

theorem trySend_eq_some (h : channel.trySend a = some channel') :
    channel.isOpen ∧ channel.queue.length < capacity ∧ channel'.sent = channel.sent ++ [a] ∧
    channel'.received = channel.received ∧ channel'.queue = channel.queue ++ [a] ∧ channel'.lost = channel.lost ∧
    channel'.isOpen = channel.isOpen := by
  unfold trySend at h
  split at h
  case isTrue hc =>
    cases h
    exact ⟨hc.1, hc.2, rfl, rfl, rfl, rfl, rfl⟩
  case isFalse => nomatch h

theorem tryRecv_eq_some (h : channel.tryRecv = some (a, channel')) :
    channel.queue = a :: channel'.queue ∧ channel'.sent = channel.sent ∧
    channel'.received = channel.received ++ [a] ∧ channel'.lost = channel.lost ∧ channel'.isOpen = channel.isOpen := by
  unfold tryRecv at h
  split at h
  case h_1 => nomatch h
  case h_2 hq =>
    cases h
    exact ⟨hq, rfl, rfl, rfl, rfl⟩

theorem received_prefix : channel.received <+: channel.sent := by
  rw [channel.fifo, List.append_assoc]
  exact List.prefix_append ..

end BoundedChannel
