import RalioFirmware.Basis.Word

/-!
# Writes to an array

A write outside an array gives nothing, so that a program in which every write
gives something stays inside its arrays.
-/

namespace Bytes

open List

/-- A byte of an array is written; nothing comes of a write outside. -/
def store (array : List UInt8) (i : Nat) (b : UInt8) : Option (List UInt8) :=
  if i < array.length then some (array.set i b) else none

theorem store_length {array array' : List UInt8} {i : Nat} {b : UInt8}
    (h : store array i b = some array') : array'.length = array.length := by
  rw [store] at h
  split at h
  · cases h
    exact length_set
  · cases h

theorem memcpy_set {array : List UInt8} {i : Nat} (h : i < array.length) (b : UInt8)
    (src : List UInt8) : memcpy (array.set i b) (i + 1) src = memcpy array i (b :: src) := by
  have htake : (array.set i b).take (i + 1) = array.take i ++ [b] := by
    rw [set_eq_take_append_cons_drop, if_pos h, take_append, take_take,
      length_take_of_le (Nat.le_of_lt h), Nat.min_eq_right (Nat.le_succ i),
          Nat.add_sub_cancel_left]
    rfl
  rw [memcpy, memcpy, htake, drop_set_of_lt (by omega), length_cons]
  simp only [append_assoc, cons_append, nil_append]
  rw [Nat.add_right_comm i 1, Nat.add_assoc]

theorem store_bind {array : List UInt8} (i : Nat) (b : UInt8)
    (f : List UInt8 → Option (List UInt8)) :
    (store array i b).bind f = if i < array.length then f (array.set i b) else none := by
  rw [store]
  split
  · rfl
  · rfl

theorem store_eq (array : List UInt8) (i : Nat) (b : UInt8) :
    store array i b = if i < array.length then some (memcpy array i [b]) else none := by
  rw [store]
  split
  · rename_i h
    rw [← memcpy_set h, memcpy, append_nil, length_nil, Nat.add_zero,
      take_append_drop]
  · rfl

end Bytes
