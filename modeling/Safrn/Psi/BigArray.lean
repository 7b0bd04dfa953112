import Mathlib.Data.List.Basic
import Safrn.Base.Filling

/-!
# Arrays that are sent buffer by buffer

The classes of big arrays keep their elements in byte buffers. The handlers write the buffers of
several arrays of one length to a connection, and read them into the buffers of arrays that they
have allocated with the same length.
-/

namespace Safrn.Psi

open Safrn.Base

/-- A class of big arrays for the elements in `valid`: the capacities of the buffers of an array
of `len` elements, `getBuffer` of all buffers, and `getValue` of an array with given buffers. -/
structure BigArray {α : Type} (valid : α → Prop) where
  capacities : Nat → List Nat
  getBuffers : Nat → (Nat → α) → List (List UInt8)
  getValue : Nat → List (List UInt8) → Nat → α
  length_getBuffers : ∀ len array, (getBuffers len array).map List.length = capacities len
  getValue_getBuffers : ∀ len array, (∀ i < len, valid (array i)) →
    ∀ i < len, getValue len (getBuffers len array) i = array i

namespace BigArray

variable {α : Type} {valid : α → Prop} (cls : BigArray valid)

/-- The buffers of `count` arrays, in the order in which they are sent. -/
def sent (count len : Nat) (arrays : Nat → Nat → α) : List (List UInt8) :=
  (List.range count).flatMap fun a ↦ cls.getBuffers len (arrays a)

/-- The capacities of the buffers of `count` new arrays. -/
def allocated (count len : Nat) : List Nat :=
  (List.range count).flatMap fun _ ↦ cls.capacities len

/-- The arrays whose buffers have been filled. -/
def received (len : Nat) (full : List (List UInt8)) (a : Nat) : Nat → α :=
  let bufferCount := (cls.capacities len).length
  cls.getValue len ((full.drop (a * bufferCount)).take bufferCount)

theorem sent_length (count len : Nat) (arrays : Nat → Nat → α) :
    (cls.sent count len arrays).map List.length = cls.allocated count len := by
  rw [sent, allocated, List.map_flatMap]
  exact List.flatMap_congr fun a _ ↦ cls.length_getBuffers len (arrays a)

/-- The receiver's arrays have the sender's elements. -/
theorem received_sent {count len : Nat} {arrays : Nat → Nat → α} {a i : Nat} (ha : a < count)
    (hvalid : ∀ i < len, valid (arrays a i)) (hi : i < len) :
    cls.received len (cls.sent count len arrays) a i = arrays a i := by
  let blocks := (List.range count).map fun a ↦ cls.getBuffers len (arrays a)
  have hlen : ∀ b ∈ blocks, b.length = (cls.capacities len).length := by
    intro b hb
    obtain ⟨a, -, rfl⟩ := List.mem_map.mp hb
    rw [← cls.length_getBuffers len (arrays a), List.length_map]
  have ha' : a < blocks.length := by
    rw [List.length_map, List.length_range]
    exact ha
  have hblock : blocks[a] = cls.getBuffers len (arrays a) := by
    rw [List.getElem_map, List.getElem_range]
  have hsent : cls.sent count len arrays = blocks.flatten := List.flatMap_def
  rw [received, hsent, take_drop_flatten hlen ha', hblock]
  exact cls.getValue_getBuffers len _ hvalid i hi

end BigArray
end Safrn.Psi
