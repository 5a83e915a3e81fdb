import RalioFirmware.Basis.Word

/-!
# Bounded queues

A queue that holds at most `limit` items.  `offer` takes what there is room
for, `force` makes room by dropping the oldest items.
-/

/-- A queue of at most `limit` items, oldest first. -/
structure Fifo (α : Type) where
  limit : Nat
  items : List α
  fits : items.length ≤ limit

namespace Fifo

variable {α : Type}

theorem ext_items {q r : Fifo α} (hlimit : q.limit = r.limit) (hitems : q.items = r.items) :
    q = r := by
  cases q
  cases r
  cases hlimit
  cases hitems
  rfl

/-- An empty queue. -/
def empty (limit : Nat) : Fifo α := ⟨limit, [], Nat.zero_le _⟩

/-- How many more items fit. -/
def room (q : Fifo α) : Nat := q.limit - q.items.length

/-- The queue with as many of `xs` behind it as fit. -/
def offer (xs : List α) (q : Fifo α) : Fifo α where
  limit := q.limit
  items := q.items ++ xs.take q.room
  fits := by
    have := q.fits
    rw [List.length_append, List.length_take, room]
    omega

/-- The queue without its `n` oldest items. -/
def drop (n : Nat) (q : Fifo α) : Fifo α where
  limit := q.limit
  items := q.items.drop n
  fits := by
    have := q.fits
    rw [List.length_drop]
    omega

/-- The same items under another bound, if they fit it. -/
def rebound (limit : Nat) (q : Fifo α) : Fifo α :=
  if h : q.items.length ≤ limit then ⟨limit, q.items, h⟩ else q

@[simp] theorem drop_limit (n : Nat) (q : Fifo α) : (q.drop n).limit = q.limit := rfl

@[simp] theorem drop_items (n : Nat) (q : Fifo α) : (q.drop n).items = q.items.drop n := rfl

@[simp] theorem offer_limit (xs : List α) (q : Fifo α) : (q.offer xs).limit = q.limit := rfl

@[simp] theorem offer_items (xs : List α) (q : Fifo α) :
    (q.offer xs).items = q.items ++ xs.take q.room := rfl

theorem drop_zero (q : Fifo α) : q.drop 0 = q := ext_items rfl rfl

theorem drop_drop (m n : Nat) (q : Fifo α) : (q.drop m).drop n = q.drop (m + n) :=
  ext_items rfl (by rw [drop_items, drop_items, drop_items, List.drop_drop])

theorem drop_of_items_nil {n : Nat} {q : Fifo α} (h : q.items = []) : q.drop n = q :=
  ext_items rfl (by rw [drop_items, h, List.drop_nil])

theorem offer_offer (xs ys : List α) (q : Fifo α) :
    (q.offer xs).offer ys = q.offer (xs ++ ys) := by
  have hroom : (q.offer xs).room = q.room - xs.length := by
    rw [room, offer_limit, offer_items, List.length_append, List.length_take, room]
    omega
  refine ext_items rfl ?_
  rw [offer_items, hroom, offer_items, offer_items, List.append_assoc, List.take_append]

/-- The newest `limit` of the queue's items and `xs`. -/
def force (xs : List α) (q : Fifo α) : Fifo α where
  limit := q.limit
  items := (q.items ++ xs).drop ((q.items ++ xs).length - q.limit)
  fits := by
    rw [List.length_drop]
    omega

/-- How many items have to go before `xs` can be forced in. -/
def excess (xs : List α) (q : Fifo α) : Nat := (q.items ++ xs).length - q.limit

@[simp] theorem force_limit (xs : List α) (q : Fifo α) : (q.force xs).limit = q.limit := rfl

theorem force_items (xs : List α) (q : Fifo α) :
    (q.force xs).items = (q.items ++ xs).drop (q.excess xs) := rfl

theorem force_nil (q : Fifo α) : q.force [] = q := by
  have := q.fits
  refine ext_items rfl ?_
  rw [force_items, excess, List.append_nil, Nat.sub_eq_zero_of_le this, List.drop_zero]

theorem force_append (xs ys : List α) (q : Fifo α) :
    (q.force xs).items ++ ys = (q.items ++ (xs ++ ys)).drop (q.excess xs) := by
  have hle : q.excess xs ≤ (q.items ++ xs).length := Nat.sub_le _ _
  rw [← List.append_assoc]
  exact (List.drop_append_of_le_length hle).symm

theorem excess_append (xs ys : List α) (q : Fifo α) :
    q.excess (xs ++ ys) = q.excess xs + (q.force xs).excess ys := by
  have hle : q.excess xs ≤ (q.items ++ xs).length := Nat.sub_le _ _
  rw [excess] at hle
  rw [excess, excess, excess, force_append, List.length_drop, force_limit, excess]
  simp only [List.length_append] at hle ⊢
  omega

theorem force_force (xs ys : List α) (q : Fifo α) :
    (q.force xs).force ys = q.force (xs ++ ys) := by
  refine ext_items rfl ?_
  rw [force_items, force_append, List.drop_drop, ← excess_append, force_items]

theorem force_of_le_room {xs : List α} {q : Fifo α} (h : xs.length ≤ q.room) :
    q.force xs = q.offer xs := by
  have := q.fits
  rw [room] at h
  refine ext_items rfl ?_
  rw [force_items, offer_items, excess, List.length_append, Nat.sub_eq_zero_of_le (by omega),
    List.drop_zero, List.take_of_length_le (by rw [room]; omega)]

theorem force_of_full {x : α} {q : Fifo α} (hfull : q.items.length = q.limit)
    (hpos : 0 < q.limit) : q.force [x] = (q.drop 1).offer [x] := by
  have hexcess : q.excess [x] = 1 := by
    rw [excess, List.length_append, hfull, Nat.add_sub_cancel_left, List.length_singleton]
  refine ext_items rfl ?_
  rw [force_items, offer_items, drop_items, hexcess,
    List.drop_append_of_le_length (by omega), List.take_of_length_le]
  rw [room, drop_limit, drop_items, List.length_drop, List.length_singleton]
  omega

end Fifo
