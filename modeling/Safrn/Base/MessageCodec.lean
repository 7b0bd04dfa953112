import Mathlib.Algebra.Group.Nat.Defs
import Mathlib.Data.List.Induction
import Safrn.Base.BigEndian

/-!
# Reading a message field by field

A reader goes through the bytes of a message and keeps a flag that says whether all went well. A
field is read into a variable, which keeps its value when the field is not there. A reader decodes
bytes when it takes exactly these and notices that they are cut.
-/

namespace Safrn.Base

/-- How values are written to a message and read from it: the value, if it is there, and the bytes
behind what was looked at. -/
structure WireField (α : Type) where
  write : α → List (BitVec 8)
  read : List (BitVec 8) → Option α × List (BitVec 8)

/-- What is written is read back, and what is cut is not. -/
structure WireField.Lawful {α : Type} (field : WireField α) : Prop where
  read_write (x : α) (rest : List (BitVec 8)) :
    field.read (field.write x ++ rest) = (some x, rest)
  read_cut {x : α} {bytes more : List (BitVec 8)} (hmore : more ≠ [])
    (h : bytes ++ more = field.write x) : (field.read bytes).1 = none

/-- The flag, and the bytes that are not read. -/
structure ReadState where
  success : Bool
  msg : List (BitVec 8)

namespace ReadState

variable {α β : Type}

/-- `success = read(x)`, where `x` is `old` before. -/
def assign (field : WireField α) (old : α) : StateM ReadState α := fun r ↦
  let (x, rest) := field.read r.msg
  (x.getD old, ⟨x.isSome, rest⟩)

/-- `success = success & read(x)`: the field is read in any case. -/
def both (field : WireField α) (old : α) : StateM ReadState α := fun r ↦
  let (x, rest) := field.read r.msg
  (x.getD old, ⟨r.success && x.isSome, rest⟩)

/-- `success = success && read(x)`: there is a read when all went well so far. -/
def andThen (read : StateM ReadState α) (old : α) : StateM ReadState α := fun r ↦
  if r.success then read r else (old, r)

/-- The same for a field. -/
def andField (field : WireField α) (old : α) : StateM ReadState α := andThen (assign field old) old

/-- Read `n` elements. -/
def list (read : ℕ → StateM ReadState α) : ℕ → StateM ReadState (List α)
  | 0 => pure []
  | n + 1 => do
    let xs ← list read n
    let x ← read n
    return xs ++ [x]

/-! ### What a reader takes -/

/-- Once the flag is down it stays so. -/
def KeepsFailure (m : StateM ReadState α) : Prop :=
  ∀ r : ReadState, r.success = false → (m r).2.success = false

/-- From the bytes, and others behind them, the reader takes the value; from a part it fails. -/
structure Decodes (m : StateM ReadState α) (bytes : List (BitVec 8)) (x : α) : Prop where
  complete (rest : List (BitVec 8)) : m ⟨true, bytes ++ rest⟩ = (x, ⟨true, rest⟩)
  cut {part more : List (BitVec 8)} (hmore : more ≠ []) (h : part ++ more = bytes) :
    (m ⟨true, part⟩).2.success = false

theorem keepsFailure_pure (x : α) : KeepsFailure (pure x) := fun _ h ↦ h

theorem keepsFailure_both (field : WireField α) (old : α) : KeepsFailure (both field old) := by
  intro r h
  simp [both, h]

theorem keepsFailure_andThen (read : StateM ReadState α) (old : α) :
    KeepsFailure (andThen read old) := by
  intro r h
  simp [andThen, h]

theorem KeepsFailure.bind {m : StateM ReadState α} {k : α → StateM ReadState β}
    (hm : KeepsFailure m) (hk : ∀ x, KeepsFailure (k x)) : KeepsFailure (m >>= k) :=
  fun r h ↦ hk _ _ (hm r h)

theorem KeepsFailure.list {read : ℕ → StateM ReadState α} (h : ∀ i, KeepsFailure (read i))
    (n : ℕ) :
    KeepsFailure (list read n) := by
  induction n with
  | zero => exact keepsFailure_pure []
  | succ n ih => exact ih.bind fun xs ↦ (h n).bind fun x ↦ keepsFailure_pure _

theorem decodes_pure (x : α) : Decodes (pure x) [] x where
  complete _ := rfl
  cut hmore h := absurd (List.append_eq_nil_iff.mp h).2 hmore

theorem Decodes.andThen {m : StateM ReadState α} {bytes : List (BitVec 8)} {x : α}
    (h : Decodes m bytes x) (old : α) : Decodes (andThen m old) bytes x where
  complete := h.complete
  cut := h.cut

theorem decodes_andField {field : WireField α} (hfield : field.Lawful) (x old : α) :
    Decodes (andField field old) (field.write x) x := by
  apply Decodes.andThen
  constructor
  · intro rest
    simp [assign, hfield.read_write]
  · intro part more hmore h
    simp [assign, hfield.read_cut hmore h]

/-- One reader after the other; the second is only reached with the value of the first. -/
theorem Decodes.bind {m : StateM ReadState α} {k : α → StateM ReadState β} {x : α} {y : β}
    {bytes bytes' : List (BitVec 8)} (hm : Decodes m bytes x) (hk : Decodes (k x) bytes' y)
    (hkeeps : ∀ x, KeepsFailure (k x)) : Decodes (m >>= k) (bytes ++ bytes') y where
  complete rest := by
    show k (m ⟨true, bytes ++ bytes' ++ rest⟩).1 (m ⟨true, bytes ++ bytes' ++ rest⟩).2 = _
    rw [List.append_assoc, hm.complete]
    exact hk.complete rest
  cut {part more} hmore h := by
    show (k (m ⟨true, part⟩).1 (m ⟨true, part⟩).2).2.success = false
    -- Either the first reader's bytes are cut, or those of the second.
    obtain ⟨first, hbytes, htail⟩ | ⟨second, hpart, htail⟩ := List.append_eq_append_iff.mp h
    · by_cases hnil : first = []
      · subst hnil
        obtain rfl : part = bytes := by simpa using hbytes.symm
        have hcomplete := hm.complete []
        rw [List.append_nil] at hcomplete
        rw [hcomplete]
        exact hk.cut hmore htail
      · exact hkeeps _ _ (hm.cut hnil hbytes.symm)
    · subst hpart
      rw [hm.complete]
      exact hk.cut hmore htail.symm

/-- A reader whose value is computed further. -/
theorem Decodes.map {m : StateM ReadState α} {x : α} {bytes : List (BitVec 8)}
    (hm : Decodes m bytes x) (f : α → β) : Decodes (do return f (← m)) bytes (f x) := by
  have hbind := hm.bind (decodes_pure (f x)) fun x ↦ keepsFailure_pure (f x)
  rwa [List.append_nil] at hbind

/-- A list of elements, each of which is decoded. -/
theorem Decodes.list {read : ℕ → StateM ReadState α} (hkeeps : ∀ i, KeepsFailure (read i))
    (write : β → List (BitVec 8)) (value : β → α) (xs : List β)
    (h : ∀ i, ∀ x ∈ xs, Decodes (read i) (write x) (value x)) :
    Decodes (list read xs.length) (xs.flatMap write) (xs.map value) := by
  induction xs using List.reverseRecOn with
  | nil => exact decodes_pure []
  | append_singleton xs x ih =>
    have hxs := ih fun i y hy ↦ h i y (List.mem_append_left _ hy)
    have hx := (h xs.length x (by simp)).map fun y ↦ xs.map value ++ [y]
    rw [List.length_append, List.length_singleton, List.flatMap_append, List.flatMap_singleton,
      List.map_append, List.map_singleton]
    exact hxs.bind hx fun xs ↦ (hkeeps _).bind fun x ↦ keepsFailure_pure _

end ReadState

/-! ### Fields of a fixed length -/

/-- A field of `n` bytes; when they are not all there nothing is taken. -/
def WireField.fixed {α : Type} (n : ℕ) (write : α → List (BitVec 8))
    (ofBytes : List (BitVec 8) → α) :
    WireField α where
  write := write
  read bytes := if n ≤ bytes.length then (some (ofBytes (bytes.take n)), bytes.drop n)
    else (none, bytes)

theorem WireField.fixed_lawful {α : Type} {n : ℕ} {write : α → List (BitVec 8)}
    {ofBytes : List (BitVec 8) → α} (hlength : ∀ x, (write x).length = n)
    (hwrite : ∀ x, ofBytes (write x) = x) : (fixed n write ofBytes).Lawful where
  read_write x rest := by
    have hlen := hlength x
    subst hlen
    simp [fixed, hwrite]
  read_cut {x bytes more} hmore h := by
    have hsum : bytes.length + more.length = n := by
      rw [← List.length_append, h]
      exact hlength x
    have hpos : more.length ≠ 0 := fun hzero ↦ hmore (List.length_eq_zero_iff.mp hzero)
    have hlt : ¬n ≤ bytes.length := by omega
    simp [fixed, hlt]

/-- An integer of `n` bytes. -/
def WireField.uint (n : ℕ) : WireField (BitVec (8 * n)) := .fixed n (bigEndian n) (ofBigEndian n)

theorem WireField.uint_lawful (n : ℕ) : (WireField.uint n).Lawful :=
  fixed_lawful (bigEndian_length n) (ofBigEndian_bigEndian n)

end Safrn.Base
