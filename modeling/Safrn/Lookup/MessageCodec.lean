import Safrn.Base.MessageCodec

/-!
# The messages with the dealer's material

Models `msg_read` and `msg_write` of `RandomTableLookup` and of its info
(`dealer/RandomTableLookup.t.h:7-61`). How numbers are written to a message is a parameter. The
reader of the material lets the result for the table size take the place of the one for `r`.
-/

namespace Safrn.Lookup.Message

open Safrn.Base

/-- The fields of the messages of the library. -/
structure Fields (LargeNum SmallNum : Type) where
  largeNum : WireField LargeNum
  smallNum : WireField SmallNum
  uint64 : WireField (BitVec 64)
  boolean : WireField (BitVec 8)

structure Fields.Lawful {LargeNum SmallNum : Type} (F : Fields LargeNum SmallNum) : Prop where
  largeNum : F.largeNum.Lawful
  smallNum : F.smallNum.Lawful
  uint64 : F.uint64.Lawful
  boolean : F.boolean.Lawful

/-- `RandomTableLookupInfo`. -/
structure RandomTableLookupInfo (LargeNum SmallNum : Type) where
  rModulus : LargeNum
  tableSize : SmallNum

/-- `RandomTableLookup`. -/
structure RandomTableLookup (LargeNum : Type) where
  r : LargeNum
  u : List (BitVec 8)

variable {LargeNum SmallNum : Type} (F : Fields LargeNum SmallNum)

namespace RandomTableLookupInfo

/-- `msg_write`. -/
def msgWrite (input : RandomTableLookupInfo LargeNum SmallNum) : List (BitVec 8) :=
  F.largeNum.write input.rModulus ++ F.smallNum.write input.tableSize

/-- `msg_read`. -/
def msgRead (input : RandomTableLookupInfo LargeNum SmallNum) :
    StateM ReadState (RandomTableLookupInfo LargeNum SmallNum) := do
  let rModulus ← ReadState.assign F.largeNum input.rModulus
  let tableSize ← ReadState.both F.smallNum input.tableSize
  return ⟨rModulus, tableSize⟩

end RandomTableLookupInfo

namespace RandomTableLookup

/-- `msg_write`. -/
def msgWrite (input : RandomTableLookup LargeNum) : List (BitVec 8) :=
  F.largeNum.write input.r ++ F.uint64.write (BitVec.ofNat 64 input.u.length) ++
    input.u.flatMap F.boolean.write

/-- `u_.resize`. -/
def resize (u : List (BitVec 8)) (size : ℕ) : List (BitVec 8) :=
  (u ++ List.replicate size 0).take size

/-- `msg_read`. -/
def msgRead (input : RandomTableLookup LargeNum) :
    StateM ReadState (RandomTableLookup LargeNum) := do
  let r ← ReadState.assign F.largeNum input.r
  -- What is reported for `r` is lost here.
  let localTableSize ← ReadState.assign F.uint64 0
  let u := resize input.u localTableSize.toNat
  let u ← ReadState.list (fun i ↦ ReadState.both F.boolean (u.getD i 0)) localTableSize.toNat
  return ⟨r, u⟩

end RandomTableLookup

/-! ### What is completely present -/

/-- A field that is there, and the bytes behind it. -/
def present {α : Type} (field : WireField α) (bytes : List (BitVec 8)) :
    Option (α × List (BitVec 8)) :=
  (field.read bytes).1.map fun x ↦ (x, (field.read bytes).2)

/-- All fields of an info. -/
def presentInfo (bytes : List (BitVec 8)) :
    Option (RandomTableLookupInfo LargeNum SmallNum × List (BitVec 8)) := do
  let (rModulus, bytes) ← present F.largeNum bytes
  let (tableSize, bytes) ← present F.smallNum bytes
  return (⟨rModulus, tableSize⟩, bytes)

/-- The first `n` entries of the table. -/
def presentCells : ℕ → List (BitVec 8) → Option (List (BitVec 8) × List (BitVec 8))
  | 0, bytes => some ([], bytes)
  | n + 1, bytes => do
    let (u, bytes) ← presentCells n bytes
    let (x, bytes) ← present F.boolean bytes
    return (u ++ [x], bytes)

/-- The table, its size first. -/
def presentTable (bytes : List (BitVec 8)) : Option (List (BitVec 8) × List (BitVec 8)) := do
  let (size, bytes) ← present F.uint64 bytes
  presentCells F size.toNat bytes

/-- All fields. -/
def presentLookup (bytes : List (BitVec 8)) :
    Option (RandomTableLookup LargeNum × List (BitVec 8)) := do
  let (r, bytes) ← present F.largeNum bytes
  let (u, bytes) ← presentTable F bytes
  return (⟨r, u⟩, bytes)

variable {F}

theorem present_write {α : Type} {field : WireField α} (h : field.Lawful) (x : α)
    (rest : List (BitVec 8)) : present field (field.write x ++ rest) = some (x, rest) := by
  simp [present, h.read_write]

/-- The loop over the table fails when an entry is missing, and takes them all otherwise. -/
private theorem list_both (old : ℕ → BitVec 8) (n : ℕ) (r : ReadState) :
    (presentCells F n r.msg = none →
        (ReadState.list (fun i ↦ ReadState.both F.boolean (old i)) n r).2.success = false) ∧
      ∀ u rest, presentCells F n r.msg = some (u, rest) →
        ReadState.list (fun i ↦ ReadState.both F.boolean (old i)) n r = (u, ⟨r.success, rest⟩) := by
  induction n with
  | zero =>
    constructor
    · intro h
      cases h
    · intro u rest h
      cases h
      rfl
  | succ n ih =>
    cases hcells : presentCells F n r.msg with
    | none =>
      constructor
      · intro _
        exact ReadState.keepsFailure_both _ (old n) _ (ih.1 hcells)
      · intro u rest h
        simp [presentCells, hcells] at h
    | some cells =>
      obtain ⟨u, rest⟩ := cells
      have hlist : ReadState.list (fun i ↦ ReadState.both F.boolean (old i)) (n + 1) r =
          (u ++ [(ReadState.both F.boolean (old n) ⟨r.success, rest⟩).1],
            (ReadState.both F.boolean (old n) ⟨r.success, rest⟩).2) := by
        simp only [ReadState.list, bind, StateT.bind, ih.2 u rest hcells]
        rfl
      rw [hlist]
      cases hread : F.boolean.read rest with
      | mk x rest' =>
        cases x <;> simp [presentCells, hcells, present, ReadState.both, hread]

/-- What the reader of the material reports and returns. -/
private theorem msgRead_cases (input : RandomTableLookup LargeNum) (r : ReadState) :
    (presentTable F (F.largeNum.read r.msg).2 = none → (input.msgRead F r).2.success = false) ∧
      ∀ u rest, presentTable F (F.largeNum.read r.msg).2 = some (u, rest) →
        input.msgRead F r = (⟨(F.largeNum.read r.msg).1.getD input.r, u⟩, ⟨true, rest⟩) := by
  obtain ⟨size, bytes, hsize⟩ : ∃ size bytes,
      F.uint64.read (F.largeNum.read r.msg).2 = (size, bytes) := ⟨_, _, rfl⟩
  let old := RandomTableLookup.resize input.u (size.getD 0).toNat
  have hread : input.msgRead F r =
      (⟨(F.largeNum.read r.msg).1.getD input.r, (ReadState.list
          (fun i ↦ ReadState.both F.boolean (old.getD i 0)) (size.getD 0).toNat
          ⟨size.isSome, bytes⟩).1⟩,
        (ReadState.list (fun i ↦ ReadState.both F.boolean (old.getD i 0)) (size.getD 0).toNat
          ⟨size.isSome, bytes⟩).2) := by
    simp only [RandomTableLookup.msgRead, ReadState.assign, bind, StateT.bind, hsize]
    rfl
  have hpresent : presentTable F (F.largeNum.read r.msg).2 =
      size.bind fun size ↦ presentCells F size.toNat bytes := by
    cases size <;> simp [presentTable, present, hsize]
  rw [hread, hpresent]
  cases size with
  | none =>
    constructor
    · intro _
      exact ReadState.KeepsFailure.list (fun i ↦ ReadState.keepsFailure_both _ _) _ _ rfl
    · intro u rest h
      cases h
  | some localTableSize =>
    obtain ⟨hnone, hsome⟩ := list_both (F := F) (fun i ↦ old.getD i 0) localTableSize.toNat
      ⟨true, bytes⟩
    constructor
    · exact hnone
    · intro u rest h
      simp only [Option.getD_some, Option.isSome_some, hsome u rest h]

private theorem pure_apply {α : Type} (x : α) (r : ReadState) :
    (pure x : StateM ReadState α) r = (x, r) := rfl

theorem msgReadInfo_eq (input : RandomTableLookupInfo LargeNum SmallNum) (r : ReadState) :
    presentInfo F r.msg = if (input.msgRead F r).2.success then
      some ((input.msgRead F r).1, (input.msgRead F r).2.msg) else none := by
  obtain ⟨rModulus, bytes, hr⟩ : ∃ x bytes, F.largeNum.read r.msg = (x, bytes) := ⟨_, _, rfl⟩
  obtain ⟨tableSize, bytes', ht⟩ : ∃ x bytes', F.smallNum.read bytes = (x, bytes') := ⟨_, _, rfl⟩
  cases rModulus <;> cases tableSize <;>
    simp [presentInfo, present, hr, ht, RandomTableLookupInfo.msgRead, ReadState.assign,
      ReadState.both, bind, StateT.bind, pure_apply]

/-- The reader of the material reports success when all but `r` is there. -/
theorem msgRead_eq_iff (input : RandomTableLookup LargeNum) (r : ReadState) :
    (presentLookup F r.msg = if (input.msgRead F r).2.success then
      some ((input.msgRead F r).1, (input.msgRead F r).2.msg) else none) ↔
      ¬((F.largeNum.read r.msg).1 = none ∧
        (presentTable F (F.largeNum.read r.msg).2).isSome = true) := by
  obtain ⟨hnone, hsome⟩ := msgRead_cases (F := F) input r
  cases htable : presentTable F (F.largeNum.read r.msg).2 with
  | none =>
    have hlookup : presentLookup F r.msg = none := by
      cases hr : (F.largeNum.read r.msg).1 <;> simp [presentLookup, present, hr, htable]
    simp [hlookup, hnone htable]
  | some table =>
    obtain ⟨u, rest⟩ := table
    rw [hsome u rest htable]
    cases hr : (F.largeNum.read r.msg).1 with
    | none => simp [presentLookup, present, hr]
    | some r => simp [presentLookup, present, hr, htable]

private theorem presentCells_write (hF : F.Lawful) (u rest : List (BitVec 8)) :
    presentCells F u.length (u.flatMap F.boolean.write ++ rest) = some (u, rest) := by
  induction u using List.reverseRecOn generalizing rest with
  | nil => rfl
  | append_singleton u x ih =>
    simp [presentCells, List.flatMap_append, ih, present_write hF.boolean]

theorem presentLookup_write (hF : F.Lawful) {value : RandomTableLookup LargeNum}
    (hu : value.u.length < 2 ^ 64) (rest : List (BitVec 8)) :
    presentLookup F (value.msgWrite F ++ rest) = some (value, rest) := by
  have hsize : (BitVec.ofNat 64 value.u.length).toNat = value.u.length := by
    rw [BitVec.toNat_ofNat, Nat.mod_eq_of_lt hu]
  simp [presentLookup, RandomTableLookup.msgWrite, presentTable, List.append_assoc,
    present_write hF.largeNum, present_write hF.uint64, hsize, presentCells_write hF]

theorem presentInfo_write (hF : F.Lawful) (value : RandomTableLookupInfo LargeNum SmallNum)
    (rest : List (BitVec 8)) : presentInfo F (value.msgWrite F ++ rest) = some (value, rest) := by
  simp [presentInfo, RandomTableLookupInfo.msgWrite, List.append_assoc,
    present_write hF.largeNum, present_write hF.smallNum]

/-- A reader that tells what is present restores what is written. -/
private theorem eq_of_present {α : Type} {value : α} {rest : List (BitVec 8)} {m : α × ReadState}
    (h : some (value, rest) = if m.2.success then some (m.1, m.2.msg) else none) :
    m = (value, ⟨true, rest⟩) := by
  obtain ⟨x, success, msg⟩ := m
  cases success
  · simp at h
  · simp at h
    simp [h.1, h.2]

/-- Numbers of 16, 4, 8 and 1 bytes. -/
def Fields.wide : Fields (BitVec 128) (BitVec 32) := ⟨.uint 16, .uint 4, .uint 8, .uint 1⟩

theorem Fields.wide_lawful : Fields.wide.Lawful :=
  ⟨WireField.uint_lawful 16, WireField.uint_lawful 4, WireField.uint_lawful 8,
    WireField.uint_lawful 1⟩

end Safrn.Lookup.Message
