import Mathlib.Data.List.Basic

/-!
# Bounded channels

A queue with room for so many items, for one receiver. Sending to a full channel and
receiving from an empty one are refused: whoever wants to do either has to wait, the one
for the receiver and the other for a sender. A channel with no room at all would make every
sender wait forever, so there is none.
-/

namespace Mintpool.Lib

structure Channel (α : Type) where
  capacity : Nat
  /-- What has been sent and not received, oldest first. -/
  items : List α
  pos : 0 < capacity
  fits : items.length ≤ capacity

namespace Channel

variable {α : Type}

def new (capacity : Nat) (pos : 0 < capacity) : Channel α := ⟨capacity, [], pos, Nat.zero_le _⟩

def isFull (c : Channel α) : Bool := c.items.length = c.capacity

def isEmpty (c : Channel α) : Bool := c.items.isEmpty

/-- Put an item in, if there is room. -/
def send (c : Channel α) (item : α) : Option (Channel α) :=
  if h : c.items.length < c.capacity then
    some ⟨c.capacity, c.items ++ [item], c.pos, by rw [List.length_append]; exact h⟩
  else none

/-- Take the oldest item out, if there is one. -/
def recv (c : Channel α) : Option (α × Channel α) :=
  match h : c.items with
  | [] => none
  | item :: items =>
      some (item, ⟨c.capacity, items, c.pos,
        by have := c.fits; rw [h, List.length_cons] at this; omega⟩)

/-- Throw away what has not been received. -/
def drop (c : Channel α) : Channel α := ⟨c.capacity, [], c.pos, Nat.zero_le _⟩

variable {c c' : Channel α} {item : α}

@[simp] theorem new_items {capacity : Nat} {pos : 0 < capacity} :
    (new capacity pos : Channel α).items = [] := rfl

@[simp] theorem new_capacity {capacity : Nat} {pos : 0 < capacity} :
    (new capacity pos : Channel α).capacity = capacity := rfl

@[simp] theorem drop_items : c.drop.items = [] := rfl

theorem isFull_iff : c.isFull = true ↔ c.items.length = c.capacity := by
  unfold isFull
  exact decide_eq_true_iff

theorem isEmpty_iff : c.isEmpty = true ↔ c.items = [] := List.isEmpty_iff

/-! ## Sending -/

/-- **Everything a send does.** -/
theorem send_cases (h : c.send item = some c') :
    c.isFull = false ∧ c'.items = c.items ++ [item] ∧ c'.capacity = c.capacity := by
  unfold send at h
  split at h
  · rename_i hlt
    cases h
    refine ⟨?_, rfl, rfl⟩
    unfold isFull
    exact decide_eq_false (by omega)
  · cases h

theorem mem_send {other : α} (h : c.send item = some c') (hmem : other ∈ c'.items) :
    other ∈ c.items ∨ other = item := by
  rw [(send_cases h).2.1] at hmem
  exact (List.mem_append.mp hmem).imp_right List.mem_singleton.mp

/-- With room, a send goes through. -/
theorem exists_send (h : c.isFull = false) (item : α) : ∃ c', c.send item = some c' := by
  have hne : c.items.length ≠ c.capacity := of_decide_eq_false h
  have hlt : c.items.length < c.capacity := by
    have := c.fits
    omega
  unfold send
  rw [dif_pos hlt]
  exact ⟨_, rfl⟩

/-! ## Receiving -/

/-- **Everything a receive does.** -/
theorem recv_cases (h : c.recv = some (item, c')) :
    c.items = item :: c'.items ∧ c'.capacity = c.capacity := by
  unfold recv at h
  split at h
  · cases h
  · rename_i heq
    cases h
    exact ⟨heq, rfl⟩

theorem mem_recv (h : c.recv = some (item, c')) : item ∈ c.items := by
  rw [(recv_cases h).1]
  exact List.mem_cons_self

theorem exists_recv (h : c.items ≠ []) : ∃ item c', c.recv = some (item, c') := by
  unfold recv
  split
  · rename_i heq; exact absurd heq h
  · exact ⟨_, _, rfl⟩

/-- **A full channel has something to receive.** -/
theorem exists_recv_of_isFull (h : c.isFull = true) : ∃ item c', c.recv = some (item, c') := by
  refine exists_recv fun hnil => ?_
  have hlen := isFull_iff.mp h
  have := c.pos
  rw [hnil, List.length_nil] at hlen
  omega

/-- **An empty channel has room.** -/
theorem not_isFull_of_nil (h : c.items = []) : c.isFull = false := by
  cases hfull : c.isFull with
  | false => rfl
  | true =>
      obtain ⟨item, c', hrecv⟩ := exists_recv_of_isFull hfull
      rw [(recv_cases hrecv).1] at h
      cases h

end Channel

end Mintpool.Lib
