import Safrn.Base.MessageCodec
import Safrn.Net.Study

/-!
# Identities and sets of peers in messages

Models `msg_read` and `msg_write` of `Identity` (`shared/src/main/cpp/Identity.t.h:7-29`) and of
`PeerSet` (`PeerSet.t.h:7-83`), and their comparison (`Identity.cpp:66-73`, `PeerSet.cpp:149-183`).
A vertical is a `size_t`, of which the lower 32 bits are sent.
-/

namespace Safrn.Net

open Safrn.Base

/-- `Identity`. -/
structure Identity where
  orgId : Dbuid
  role : Role
  vertical : BitVec 64
deriving DecidableEq

/-- `PeerSet`, without the ids and the completion of its peers' fronctocols. -/
structure PeerSet where
  hasDealer : Bool
  dealer : Identity
  recipients : List Identity
  dataowners : List (List Identity)

/-- The fields of the messages of the library. -/
structure PeerFields where
  orgId : WireField Dbuid
  uint8 : WireField (BitVec 8)
  uint32 : WireField (BitVec 32)

structure PeerFields.Lawful (F : PeerFields) : Prop where
  orgId : F.orgId.Lawful
  uint8 : F.uint8.Lawful
  uint32 : F.uint32.Lawful

variable (F : PeerFields)

namespace Identity

/-- `Identity()`. -/
def invalid : Identity := ⟨0, 0xFF, BitVec.allOnes 64⟩

/-- `operator==`. -/
def eq (a b : Identity) : Bool :=
  if a.role = roleDataowner then
    a.orgId == b.orgId && a.role == b.role && a.vertical == b.vertical
  else a.orgId == b.orgId && a.role == b.role

/-- `msg_write`. -/
def msgWrite (id : Identity) : List (BitVec 8) :=
  F.orgId.write id.orgId ++ (F.uint8.write id.role ++ F.uint32.write (id.vertical.setWidth 32))

/-- `msg_read`. -/
def msgRead (id : Identity) : StateM ReadState Identity := do
  let orgId ← ReadState.andField F.orgId id.orgId
  let role ← ReadState.andField F.uint8 id.role
  let vert32 ← ReadState.andField F.uint32 0
  return ⟨orgId, role, vert32.setWidth 64⟩

end Identity

namespace PeerSet

/-- `PeerSet()`. -/
def empty : PeerSet := ⟨false, .invalid, [], []⟩

/-- `operator==`; lists are compared by their lengths and element by element. -/
def eq (a b : PeerSet) : Bool :=
  a.hasDealer == b.hasDealer && (!a.hasDealer || a.dealer.eq b.dealer) &&
    (a.recipients.length == b.recipients.length &&
      (a.recipients.zip b.recipients).all fun (x, y) ↦ x.eq y) &&
    (a.dataowners.length == b.dataowners.length &&
      (a.dataowners.zip b.dataowners).all fun (xs, ys) ↦
        xs.length == ys.length && (xs.zip ys).all fun (x, y) ↦ x.eq y)

/-- A list behind its length. -/
def writeIdentities (ids : List Identity) : List (BitVec 8) :=
  F.uint32.write (BitVec.ofNat 32 ids.length) ++ ids.flatMap (Identity.msgWrite F)

/-- `msg_write`. -/
def msgWrite (peerset : PeerSet) : List (BitVec 8) :=
  (if peerset.hasDealer then F.uint8.write 0x01 ++ peerset.dealer.msgWrite F
    else F.uint8.write 0x00) ++
    (writeIdentities F peerset.recipients ++
      (F.uint32.write (BitVec.ofNat 32 peerset.dataowners.length) ++
        peerset.dataowners.flatMap (writeIdentities F)))

/-- An identity that is read when all went well so far. -/
def readIdentity (old : Identity) : StateM ReadState Identity :=
  ReadState.andThen (old.msgRead F) old

/-- The dealer, if there is one. -/
def readDealer (hasDlr8 : BitVec 8) (old : Identity) : StateM ReadState Identity :=
  if hasDlr8 = 0x00 then pure old else readIdentity F old

/-- A list behind its length. -/
def readIdentities : StateM ReadState (List Identity) := do
  let num32 ← ReadState.andField F.uint32 0
  ReadState.list (fun _ ↦ readIdentity F .invalid) num32.toNat

/-- The loop over the verticals: each is appended, and its data owners to the vertical `i`. -/
def readVerticals (dataowners : List (List Identity)) : ℕ → StateM ReadState (List (List Identity))
  | 0 => pure dataowners
  | i + 1 => do
    let dataowners ← readVerticals dataowners i
    let owners ← readIdentities F
    return (dataowners ++ [[]]).modify i (· ++ owners)

/-- `msg_read`. -/
def msgRead (peerset : PeerSet) : StateM ReadState PeerSet := do
  let hasDlr8 ← ReadState.andField F.uint8 0
  let dealer ← readDealer F hasDlr8 peerset.dealer
  let recipients ← readIdentities F
  let numVerts32 ← ReadState.andField F.uint32 0
  let dataowners ← readVerticals F peerset.dataowners numVerts32.toNat
  return ⟨hasDlr8 != 0x00, dealer, peerset.recipients ++ recipients, dataowners⟩

end PeerSet

variable {F}

/-! ### Identities -/

namespace Identity

/-- What is left of an identity. -/
def truncate (id : Identity) : Identity :=
  { id with vertical := (id.vertical.setWidth 32).setWidth 64 }

/-- The vertical of a data owner is compared, that of others is not. -/
theorem truncate_eq_iff (id : Identity) :
    id.truncate.eq id = true ↔ (id.role = roleDataowner → id.vertical.toNat < 2 ^ 32) := by
  have hvertical : (id.vertical.setWidth 32).setWidth 64 = id.vertical ↔
      id.vertical.toNat < 2 ^ 32 := by
    rw [← BitVec.toNat_inj]
    simp only [BitVec.toNat_setWidth]
    omega
  by_cases hrole : id.role = roleDataowner
  · simp [eq, truncate, hrole, hvertical]
  · simp [eq, truncate, hrole]

theorem decodes (hF : F.Lawful) (old id : Identity) :
    ReadState.Decodes (old.msgRead F) (id.msgWrite F) id.truncate := by
  have hvertical := (ReadState.decodes_andField hF.uint32 (id.vertical.setWidth 32) 0).map
    fun vert32 ↦ (⟨id.orgId, id.role, vert32.setWidth 64⟩ : Identity)
  apply (ReadState.decodes_andField hF.orgId id.orgId old.orgId).bind
  · apply (ReadState.decodes_andField hF.uint8 id.role old.role).bind hvertical
    intro role
    exact (ReadState.keepsFailure_andThen _ _).bind fun _ ↦ ReadState.keepsFailure_pure _
  · intro orgId
    exact (ReadState.keepsFailure_andThen _ _).bind fun _ ↦
      (ReadState.keepsFailure_andThen _ _).bind fun _ ↦ ReadState.keepsFailure_pure _

end Identity

/-! ### Sets of peers -/

namespace PeerSet

theorem keepsFailure_readIdentities : ReadState.KeepsFailure (readIdentities F) :=
  (ReadState.keepsFailure_andThen _ _).bind fun _ ↦
    ReadState.KeepsFailure.list (fun _ ↦ ReadState.keepsFailure_andThen _ _) _

theorem keepsFailure_readVerticals (dataowners : List (List Identity)) (n : ℕ) :
    ReadState.KeepsFailure (readVerticals F dataowners n) := by
  induction n with
  | zero => exact ReadState.keepsFailure_pure _
  | succ n ih =>
    exact ih.bind fun _ ↦ keepsFailure_readIdentities.bind fun _ ↦ ReadState.keepsFailure_pure _

private theorem toNat_ofNat {n : ℕ} (h : n < 2 ^ 32) : (BitVec.ofNat 32 n).toNat = n := by
  rw [BitVec.toNat_ofNat, Nat.mod_eq_of_lt h]

theorem decodes_readIdentities (hF : F.Lawful) {ids : List Identity} (h : ids.length < 2 ^ 32) :
    ReadState.Decodes (readIdentities F) (writeIdentities F ids) (ids.map Identity.truncate) := by
  apply (ReadState.decodes_andField hF.uint32 (BitVec.ofNat 32 ids.length) 0).bind
  · rw [toNat_ofNat h]
    exact ReadState.Decodes.list (fun _ ↦ ReadState.keepsFailure_andThen _ _) _ _ ids
      fun _ id _ ↦ (Identity.decodes hF .invalid id).andThen _
  · intro num32
    exact ReadState.KeepsFailure.list (fun _ ↦ ReadState.keepsFailure_andThen _ _) _

private theorem modify_last {α : Type} (f : α → α) (xs : List α) (y : α) :
    (xs ++ [y]).modify xs.length f = xs ++ [f y] := by
  induction xs with
  | nil => rfl
  | cons x xs ih => simp [List.modify_succ_cons, ih]

theorem decodes_readVerticals (hF : F.Lawful) {dataowners : List (List Identity)}
    (h : ∀ owners ∈ dataowners, owners.length < 2 ^ 32) :
    ReadState.Decodes (readVerticals F [] dataowners.length)
      (dataowners.flatMap (writeIdentities F)) (dataowners.map (List.map Identity.truncate)) := by
  induction dataowners using List.reverseRecOn with
  | nil => exact ReadState.decodes_pure []
  | append_singleton dataowners owners ih =>
    have hall := ih fun owners howners ↦ h owners (List.mem_append_left _ howners)
    have howners := (decodes_readIdentities hF (h owners (by simp))).map fun owners ↦
      (dataowners.map (List.map Identity.truncate) ++ [[]]).modify dataowners.length (· ++ owners)
    rw [List.length_append, List.length_singleton, List.flatMap_append, List.flatMap_singleton,
      List.map_append, List.map_singleton]
    have hmodify : (dataowners.map (List.map Identity.truncate) ++ [[]]).modify dataowners.length
        (· ++ owners.map Identity.truncate) =
          dataowners.map (List.map Identity.truncate) ++ [owners.map Identity.truncate] := by
      have hlast := modify_last (· ++ owners.map Identity.truncate)
        (dataowners.map (List.map Identity.truncate)) []
      rwa [List.length_map] at hlast
    rw [hmodify] at howners
    exact hall.bind howners fun _ ↦ keepsFailure_readIdentities.bind fun _ ↦
      ReadState.keepsFailure_pure _

/-- What is left of a set of peers; without a dealer nothing is sent for it. -/
def truncate (peerset : PeerSet) : PeerSet where
  hasDealer := peerset.hasDealer
  dealer := if peerset.hasDealer then peerset.dealer.truncate else .invalid
  recipients := peerset.recipients.map Identity.truncate
  dataowners := peerset.dataowners.map (List.map Identity.truncate)

/-- The numbers of verticals and of members fit the format. -/
structure Small (peerset : PeerSet) : Prop where
  recipients : peerset.recipients.length < 2 ^ 32
  verticals : peerset.dataowners.length < 2 ^ 32
  dataowners : ∀ owners ∈ peerset.dataowners, owners.length < 2 ^ 32

/-- What is read behind the dealer. -/
private def readMembers (F : PeerFields) (hasDealer : Bool) (dealer : Identity) :
    StateM ReadState PeerSet := do
  let recipients ← readIdentities F
  let numVerts32 ← ReadState.andField F.uint32 0
  let dataowners ← readVerticals F [] numVerts32.toNat
  return ⟨hasDealer, dealer, recipients, dataowners⟩

private theorem keepsFailure_readMembers (hasDealer : Bool) (dealer : Identity) :
    ReadState.KeepsFailure (readMembers F hasDealer dealer) :=
  keepsFailure_readIdentities.bind fun _ ↦ (ReadState.keepsFailure_andThen _ _).bind fun _ ↦
    (keepsFailure_readVerticals _ _).bind fun _ ↦ ReadState.keepsFailure_pure _

private theorem decodes_readMembers (hF : F.Lawful) {peerset : PeerSet} (h : peerset.Small)
    (hasDealer : Bool) (dealer : Identity) :
    ReadState.Decodes (readMembers F hasDealer dealer)
      (writeIdentities F peerset.recipients ++
        (F.uint32.write (BitVec.ofNat 32 peerset.dataowners.length) ++
          peerset.dataowners.flatMap (writeIdentities F)))
      ⟨hasDealer, dealer, peerset.recipients.map Identity.truncate,
        peerset.dataowners.map (List.map Identity.truncate)⟩ := by
  have hverticals := (decodes_readVerticals hF h.dataowners).map fun dataowners ↦
    (⟨hasDealer, dealer, peerset.recipients.map Identity.truncate, dataowners⟩ : PeerSet)
  rw [← toNat_ofNat h.verticals] at hverticals
  apply (decodes_readIdentities hF h.recipients).bind
  · apply (ReadState.decodes_andField hF.uint32
      (BitVec.ofNat 32 peerset.dataowners.length) 0).bind hverticals
    intro numVerts32
    exact (keepsFailure_readVerticals _ _).bind fun _ ↦ ReadState.keepsFailure_pure _
  · intro recipients
    exact (ReadState.keepsFailure_andThen _ _).bind fun _ ↦
      (keepsFailure_readVerticals _ _).bind fun _ ↦ ReadState.keepsFailure_pure _

private theorem msgRead_empty : empty.msgRead F = (do
    let hasDlr8 ← ReadState.andField F.uint8 0
    let dealer ← readDealer F hasDlr8 .invalid
    readMembers F (hasDlr8 != 0x00) dealer) := rfl

theorem decodes (hF : F.Lawful) {peerset : PeerSet} (h : peerset.Small) :
    ReadState.Decodes (empty.msgRead F) (peerset.msgWrite F) peerset.truncate := by
  have hkeeps (hasDlr8 : BitVec 8) : ReadState.KeepsFailure (do
      let dealer ← readDealer F hasDlr8 .invalid
      readMembers F (hasDlr8 != 0x00) dealer) := by
    apply ReadState.KeepsFailure.bind _ (keepsFailure_readMembers _)
    unfold readDealer
    split
    · exact ReadState.keepsFailure_pure _
    · exact ReadState.keepsFailure_andThen _ _
  have hmembers := decodes_readMembers hF h
  rw [msgRead_empty]
  unfold msgWrite truncate
  cases hdealer : peerset.hasDealer with
  | true =>
    rw [if_pos rfl, if_pos rfl, List.append_assoc]
    exact (ReadState.decodes_andField hF.uint8 0x01 0).bind
      (((Identity.decodes hF .invalid peerset.dealer).andThen .invalid).bind (hmembers true _)
        (keepsFailure_readMembers true)) hkeeps
  | false =>
    rw [if_neg Bool.false_ne_true, if_neg Bool.false_ne_true]
    exact (ReadState.decodes_andField hF.uint8 0x00 0).bind (hmembers false .invalid) hkeeps

/-- Identities whose vertical, where it counts, fits the format. -/
def Whole (id : Identity) : Prop := id.role = roleDataowner → id.vertical.toNat < 2 ^ 32

instance (id : Identity) : Decidable (Whole id) :=
  inferInstanceAs (Decidable (id.role = roleDataowner → id.vertical.toNat < 2 ^ 32))

/-- The dealer, if there is one, the recipients and the data owners. -/
def members (peerset : PeerSet) : List Identity :=
  (if peerset.hasDealer then [peerset.dealer] else []) ++ peerset.recipients ++
    peerset.dataowners.flatten

private theorem zip_truncate (ids : List Identity) (h : ∀ id ∈ ids, Whole id) :
    (((ids.map Identity.truncate).zip ids).all fun (x, y) ↦ x.eq y) = true := by
  induction ids with
  | nil => rfl
  | cons id ids ih =>
    have hid := (Identity.truncate_eq_iff id).mpr (h id List.mem_cons_self)
    simp only [List.map_cons, List.zip_cons_cons, List.all_cons, hid, Bool.true_and]
    exact ih fun id hid ↦ h id (List.mem_cons_of_mem _ hid)

private theorem zip_truncate_verticals (dataowners : List (List Identity))
    (h : ∀ owners ∈ dataowners, ∀ id ∈ owners, Whole id) :
    (((dataowners.map (List.map Identity.truncate)).zip dataowners).all fun (xs, ys) ↦
      xs.length == ys.length && (xs.zip ys).all fun (x, y) ↦ x.eq y) = true := by
  induction dataowners with
  | nil => rfl
  | cons owners dataowners ih =>
    have howners := zip_truncate owners (h owners List.mem_cons_self)
    simp only [List.map_cons, List.zip_cons_cons, List.all_cons, List.length_map, beq_self_eq_true,
      howners, Bool.true_and]
    exact ih fun owners hmem ↦ h owners (List.mem_cons_of_mem _ hmem)

theorem truncate_eq_of_whole {peerset : PeerSet} (h : ∀ id ∈ peerset.members, Whole id) :
    peerset.truncate.eq peerset = true := by
  have hdealer : (!peerset.hasDealer || peerset.truncate.dealer.eq peerset.dealer) = true := by
    cases hhas : peerset.hasDealer with
    | false => rfl
    | true =>
      have htruncate : peerset.truncate.dealer = peerset.dealer.truncate := if_pos hhas
      rw [htruncate, (Identity.truncate_eq_iff _).mpr (h _ (by simp [members, hhas]))]
      rfl
  have hrecipients := zip_truncate peerset.recipients fun id hid ↦ h id (by simp [members, hid])
  have hdataowners : (((peerset.dataowners.map (List.map Identity.truncate)).zip
      peerset.dataowners).all fun (xs, ys) ↦
        xs.length == ys.length && (xs.zip ys).all fun (x, y) ↦ x.eq y) = true := by
    apply zip_truncate_verticals
    intro owners howners id hid
    apply h
    simp only [members, List.mem_append, List.mem_flatten]
    exact Or.inr ⟨owners, howners, hid⟩
  simp only [eq, truncate] at hdealer ⊢
  simp [hdealer, hrecipients, hdataowners]

end PeerSet

/-- An identity that is no data owner, or whose vertical fits 32 bits, comes back equal, and so does
a set of such peers; the bytes written are consumed, and no part of them is accepted. -/
theorem msgRead_msgWrite (hF : F.Lawful) :
    (∀ old id : Identity, PeerSet.Whole id →
      ∃ id', id'.eq id = true ∧ ReadState.Decodes (old.msgRead F) (id.msgWrite F) id') ∧
      ∀ peerset : PeerSet, peerset.Small → (∀ id ∈ peerset.members, PeerSet.Whole id) →
        ∃ peerset', peerset'.eq peerset = true ∧
          ReadState.Decodes (PeerSet.empty.msgRead F) (peerset.msgWrite F) peerset' := by
  constructor
  · intro old id hid
    exact ⟨id.truncate, (Identity.truncate_eq_iff id).mpr hid, Identity.decodes hF old id⟩
  · intro peerset hsmall hmembers
    exact ⟨peerset.truncate, PeerSet.truncate_eq_of_whole hmembers, PeerSet.decodes hF hsmall⟩

/-- The bytes of the organization, and integers of 1 and 4 bytes. -/
def PeerFields.plain : PeerFields := ⟨.uint 16, .uint 1, .uint 4⟩

theorem PeerFields.plain_lawful : PeerFields.plain.Lawful :=
  ⟨WireField.uint_lawful 16, WireField.uint_lawful 1, WireField.uint_lawful 4⟩

/-- A dealer, a recipient, an empty vertical and one with a data owner. -/
def smallPeerSet : PeerSet where
  hasDealer := true
  dealer := ⟨1, 0x04, BitVec.allOnes 64⟩
  recipients := [⟨2, 0x08, BitVec.allOnes 64⟩]
  dataowners := [[], [⟨3, roleDataowner, 1⟩]]

theorem msgRead_smallPeerSet : ∃ peerset', peerset'.eq smallPeerSet = true ∧
    ReadState.Decodes (PeerSet.empty.msgRead PeerFields.plain)
      (smallPeerSet.msgWrite PeerFields.plain) peerset' := by
  have hsmall : smallPeerSet.Small := ⟨by decide, by decide, by decide⟩
  apply (msgRead_msgWrite PeerFields.plain_lawful).2 smallPeerSet hsmall
  decide

/-- A data owner without a vertical comes back with the vertical `2 ^ 32 - 1`. -/
theorem msgRead_truncates :
    let id : Identity := ⟨1, roleDataowner, BitVec.allOnes 64⟩
    ((Identity.invalid.msgRead PeerFields.plain
      ⟨true, id.msgWrite PeerFields.plain⟩).1.eq id) = false := by
  decide +kernel

end Safrn.Net
