import Safrn.Base.Parties
import Safrn.Lookup.Protocol
import Mathlib.Algebra.Order.BigOperators.Group.Finset

/-!
# The invariant of the table lookup protocol

It is about schedules in which no share reaches the revealer before the revealer's own children
have completed. Then the revealer awaits exactly the parties whose share it has not added, so
that its counter is zero only after it has opened the value.
-/

namespace Safrn.Lookup

open Safrn.Base

namespace Session

variable (L : Session)

/-- A share may reach the revealer only after the revealer's children have completed. -/
def Orderly (s : State L.tableValueByteLength) (a : Action) : Prop :=
  ∀ p, a = .deliver p L.revealer → (s.parties L.revealer).state = .childrenComplete

instance (s : State L.tableValueByteLength) (a : Action) : Decidable (L.Orderly s a) :=
  match a with
  | .complete _ => .isTrue fun _ h ↦ nomatch h
  | .deliver p b => decidable_of_iff
    (b = L.revealer → (s.parties L.revealer).state = .childrenComplete)
    ⟨fun h _ hp ↦ h (Action.deliver.inj hp).2, fun h hb ↦ h p (hb ▸ rfl)⟩

/-- The protocol under orderly schedules. -/
def orderly : Machine (State L.tableValueByteLength) Action := L.protocol.restrict L.Orderly

/-- The parties that send their share to the revealer. -/
def others : Finset Nat := (Finset.range L.nParties).erase L.revealer

/-- The value that all index shares make up. -/
def openedValue : Nat := (∑ p ∈ Finset.range L.nParties, L.indexShare p) % L.info.rModulus

/-- Whether the revealer still awaits the party. -/
def pending (s : State L.tableValueByteLength) (p : Nat) : Nat := if s.added p then 0 else 1

/-- What the revealer has added for the party. -/
def contributed (s : State L.tableValueByteLength) (p : Nat) : Nat :=
  if s.added p then L.indexShare p else 0

/-- The invariant. -/
structure Inv (s : State L.tableValueByteLength) : Prop where
  others_await : ∀ p ∈ L.others, (s.parties p).numPartiesAwaiting = 0
  shares : ∀ p ∈ L.others, s.channel p L.revealer =
    if (s.parties p).state = .childrenComplete ∧ s.added p = false
      then [.share (L.indexShare p)] else []
  added : ∀ p ∈ L.others, s.added p = true → (s.parties p).state = .childrenComplete
  opened : ∀ p ∈ L.others, s.channel L.revealer p =
    if (s.parties L.revealer).result ≠ none ∧ (s.parties p).result = none
      then [.opened L.openedValue] else []
  channels : ∀ a b, s.channel a b ≠ [] →
    (a ∈ L.others ∧ b = L.revealer) ∨ (a = L.revealer ∧ b ∈ L.others)
  finished : ∀ p < L.nParties, ∀ out, (s.parties p).result = some out →
    (s.parties L.revealer).result ≠ none ∧
      (s.parties p).revealedValue = L.openedValue ∧ out = L.computeFinalShare p L.openedValue
  early : (s.parties L.revealer).state ≠ .childrenComplete →
    (s.parties L.revealer).numPartiesAwaiting = 0 ∧
      (s.parties L.revealer).result = none ∧ ∀ p ∈ L.others, s.added p = false
  await : (s.parties L.revealer).state = .childrenComplete →
    (s.parties L.revealer).numPartiesAwaiting = ∑ p ∈ L.others, L.pending s p ∧
      (s.parties L.revealer).revealedValue =
        (L.indexShare L.revealer + ∑ p ∈ L.others, L.contributed s p) % L.info.rModulus ∧
      ((s.parties L.revealer).result = none ↔ 0 < (s.parties L.revealer).numPartiesAwaiting)
  opens : s.opens = if (s.parties L.revealer).result = none then 0 else 1
  not_shareAsOpened : s.shareAsOpened = false
  not_openedAsShare : s.openedAsShare = false

variable {L}

theorem mem_others {p : Nat} : p ∈ L.others ↔ p ≠ L.revealer ∧ p < L.nParties := by
  rw [others, Finset.mem_erase, Finset.mem_range]

theorem card_others : L.others.card = L.nParties - 1 := by
  rw [others, Finset.card_erase_of_mem (Finset.mem_range.mpr L.revealer_lt), Finset.card_range]

/-- The opened value is the revealer's index share and those of the others. -/
theorem openedValue_eq : L.openedValue =
    (L.indexShare L.revealer + ∑ p ∈ L.others, L.indexShare p) % L.info.rModulus := by
  rw [openedValue, others, Finset.add_sum_erase _ _ (Finset.mem_range.mpr L.revealer_lt)]

/-! ### Channels and parties after a step -/

theorem enqueue_apply (channel : Nat → Nat → List Message) (a b : Nat) (msg : Message)
    (a' b' : Nat) : enqueue channel a b msg a' b' =
      if a' = a ∧ b' = b then channel a b ++ [msg] else channel a' b' := by
  unfold enqueue
  by_cases ha : a' = a
  · subst ha
    by_cases hb : b' = b
    · subst hb; rw [Function.update_self, Function.update_self, if_pos ⟨rfl, rfl⟩]
    · rw [Function.update_self, Function.update_of_ne hb, if_neg fun h ↦ hb h.2]
  · rw [Function.update_of_ne ha, if_neg fun h ↦ ha h.1]

theorem dequeue_apply (channel : Nat → Nat → List Message) (a b a' b' : Nat) :
    dequeue channel a b a' b' =
      if a' = a ∧ b' = b then (channel a b).tail else channel a' b' := by
  unfold dequeue
  by_cases ha : a' = a
  · subst ha
    by_cases hb : b' = b
    · subst hb; rw [Function.update_self, Function.update_self, if_pos ⟨rfl, rfl⟩]
    · rw [Function.update_self, Function.update_of_ne hb, if_neg fun h ↦ hb h.2]
  · rw [Function.update_of_ne ha, if_neg fun h ↦ ha h.1]

theorem enqueueOthers_apply (channel : Nat → Nat → List Message) (a : Nat) (msg : Message)
    (a' b' : Nat) : L.enqueueOthers channel a msg a' b' =
      if a' = a ∧ b' ∈ L.others then channel a b' ++ [msg] else channel a' b' := by
  unfold enqueueOthers
  by_cases ha : a' = a
  · subst ha
    rw [Function.update_self]
    by_cases hb : b' ∈ L.others
    · rw [if_pos (mem_others.mp hb).symm, if_pos ⟨rfl, hb⟩]
    · rw [if_neg fun h ↦ hb (mem_others.mpr h.symm), if_neg fun h ↦ hb h.2]
  · rw [Function.update_of_ne ha, if_neg fun h ↦ ha h.1]

section SetParty

variable (s : State L.tableValueByteLength) (p : Nat) (party : Party L.tableValueByteLength)

@[simp] theorem setParty_channel : (L.setParty s p party).channel = s.channel := rfl
@[simp] theorem setParty_added : (L.setParty s p party).added = s.added := rfl
@[simp] theorem setParty_opens : (L.setParty s p party).opens = s.opens := rfl
@[simp] theorem setParty_shareAsOpened :
    (L.setParty s p party).shareAsOpened = s.shareAsOpened := rfl
@[simp] theorem setParty_openedAsShare :
    (L.setParty s p party).openedAsShare = s.openedAsShare := rfl
@[simp] theorem setParty_self : (L.setParty s p party).parties p = party :=
  Function.update_self ..
theorem setParty_of_ne {q : Nat} (h : q ≠ p) : (L.setParty s p party).parties q = s.parties q :=
  Function.update_of_ne h ..

end SetParty

/-! ### Each step keeps the invariant -/

theorem inv_start : L.Inv L.start where
  others_await _ _ := rfl
  shares _ _ := rfl
  added _ _ h := absurd h Bool.false_ne_true
  opened _ _ := rfl
  channels _ _ h := absurd rfl h
  finished _ _ _ h := nomatch h
  early _ := ⟨rfl, rfl, fun _ _ ↦ rfl⟩
  await h := nomatch h
  opens := rfl
  not_shareAsOpened := rfl
  not_openedAsShare := rfl

/-- A completed `Compare` changes nothing that the invariant speaks about. -/
private theorem Inv.compare {s t : State L.tableValueByteLength} (h : L.Inv s) {p : Nat}
    (hs : (s.parties p).state = .awaitingCompare)
    (ht : t = L.setParty s p { s.parties p with state := .awaitingTypeCastFromBit }) :
    L.Inv t := by
  have hsame : ∀ q, (t.parties q).numPartiesAwaiting = (s.parties q).numPartiesAwaiting ∧
      (t.parties q).revealedValue = (s.parties q).revealedValue ∧
      (t.parties q).result = (s.parties q).result ∧
      ((t.parties q).state = .childrenComplete ↔ (s.parties q).state = .childrenComplete) := by
    intro q
    by_cases hq : q = p
    · subst hq
      simp [ht, hs]
    · simp only [ht, setParty_of_ne _ _ _ hq, true_and]
  have hchannel : t.channel = s.channel := ht ▸ rfl
  have hadded : t.added = s.added := ht ▸ rfl
  exact {
    others_await := fun q hq ↦ (hsame q).1.trans (h.others_await q hq)
    shares := fun q hq ↦ by
      simp only [(hsame q).2.2.2, hchannel, hadded]
      exact h.shares q hq
    added := fun q hq ha ↦ (hsame q).2.2.2.mpr (h.added q hq (hadded ▸ ha))
    opened := fun q hq ↦ by
      simp only [(hsame q).2.2.1, (hsame L.revealer).2.2.1, hchannel]
      exact h.opened q hq
    channels := hchannel ▸ h.channels
    finished := fun q hq out hout ↦ by
      simp only [(hsame q).2.2.1, (hsame q).2.1, (hsame L.revealer).2.2.1] at hout ⊢
      exact h.finished q hq out hout
    early := fun hst ↦ by
      simp only [(hsame L.revealer).1, (hsame L.revealer).2.2.1, hadded]
      exact h.early fun hst' ↦ hst ((hsame L.revealer).2.2.2.mpr hst')
    await := fun hst ↦ by
      simp only [(hsame L.revealer).1, (hsame L.revealer).2.1, (hsame L.revealer).2.2.1,
        pending, contributed, hadded]
      exact h.await ((hsame L.revealer).2.2.2.mp hst)
    opens := by
      rw [(hsame L.revealer).2.2.1, ht]
      exact h.opens
    not_shareAsOpened := ht ▸ h.not_shareAsOpened
    not_openedAsShare := ht ▸ h.not_openedAsShare }

/-- A party's share goes on its way. -/
private theorem Inv.share {s t : State L.tableValueByteLength} (h : L.Inv s) {p : Nat}
    (hp : p ∈ L.others) (hs : (s.parties p).state = .awaitingTypeCastFromBit)
    (ht : t = L.setParty { s with
        channel := enqueue s.channel p L.revealer (.share (L.indexShare p)) } p
      { s.parties p with state := .childrenComplete, numPartiesAwaiting := 0 }) :
    L.Inv t := by
  have hne : L.revealer ≠ p := (mem_others.mp hp).1.symm
  have hnot : s.added p = false := by
    cases ha : s.added p with
    | false => rfl
    | true => rw [h.added p hp ha] at hs; cases hs
  have hempty : s.channel p L.revealer = [] := by
    rw [h.shares p hp, if_neg]
    rw [hs]
    exact fun hc ↦ nomatch hc.1
  have hself : t.parties p =
      { s.parties p with state := .childrenComplete, numPartiesAwaiting := 0 } := by
    rw [ht, setParty_self]
  have hother : ∀ q, q ≠ p → t.parties q = s.parties q := fun q hq ↦ by
    rw [ht, setParty_of_ne _ _ _ hq]
  have hsame : ∀ q, (t.parties q).revealedValue = (s.parties q).revealedValue ∧
      (t.parties q).result = (s.parties q).result := by
    intro q
    by_cases hq : q = p
    · subst hq
      rw [hself]
      exact ⟨rfl, rfl⟩
    · rw [hother q hq]
      exact ⟨rfl, rfl⟩
  have hchannel : t.channel = enqueue s.channel p L.revealer (.share (L.indexShare p)) :=
    ht ▸ rfl
  have hadded : t.added = s.added := ht ▸ rfl
  exact {
    others_await := fun q hq ↦ by
      by_cases hqp : q = p
      · subst hqp
        rw [hself]
      · rw [hother q hqp]
        exact h.others_await q hq
    shares := fun q hq ↦ by
      by_cases hqp : q = p
      · subst hqp
        rw [hself, hchannel, hadded, enqueue_apply, if_pos ⟨rfl, rfl⟩, hempty, if_pos ⟨rfl, hnot⟩]
        rfl
      · rw [hother q hqp, hchannel, hadded, enqueue_apply, if_neg fun hc ↦ hqp hc.1]
        exact h.shares q hq
    added := fun q hq ha ↦ by
      by_cases hqp : q = p
      · subst hqp
        rw [hself]
      · rw [hother q hqp]
        exact h.added q hq (hadded ▸ ha)
    opened := fun q hq ↦ by
      simp only [(hsame q).2, (hsame L.revealer).2, hchannel, enqueue_apply]
      rw [if_neg fun hc ↦ hne hc.1]
      exact h.opened q hq
    channels := fun a b hab ↦ by
      rw [hchannel, enqueue_apply] at hab
      split at hab
      · next hc => exact .inl ⟨hc.1 ▸ hp, hc.2⟩
      · exact h.channels a b hab
    finished := fun q hq out hout ↦ by
      simp only [(hsame q).2, (hsame q).1, (hsame L.revealer).2] at hout ⊢
      exact h.finished q hq out hout
    early := fun hst ↦ by
      rw [hother _ hne, hadded]
      exact h.early (hother _ hne ▸ hst)
    await := fun hst ↦ by
      simp only [hother _ hne, pending, contributed, hadded]
      exact h.await (hother _ hne ▸ hst)
    opens := by
      rw [hother _ hne, ht]
      exact h.opens
    not_shareAsOpened := ht ▸ h.not_shareAsOpened
    not_openedAsShare := ht ▸ h.not_openedAsShare }

/-- The revealer starts to await all others. -/
private theorem Inv.await_others {s t : State L.tableValueByteLength} (h : L.Inv s)
    (h2 : 2 ≤ L.nParties) (hr : (s.parties L.revealer).result = none)
    (hs : (s.parties L.revealer).state = .awaitingTypeCastFromBit)
    (ht : t = L.setParty s L.revealer { s.parties L.revealer with
      state := .childrenComplete
      numPartiesAwaiting := (s.parties L.revealer).numPartiesAwaiting + (L.nParties - 1)
      revealedValue := L.indexShare L.revealer }) :
    L.Inv t := by
  obtain ⟨hzero, -, hnot⟩ := h.early (by rw [hs]; exact nofun)
  have hself : t.parties L.revealer = ⟨.childrenComplete, L.indexShare L.revealer,
      L.nParties - 1, none⟩ := by
    simp only [ht, setParty_self, hzero, hr, Nat.zero_add]
  have hother : ∀ q, q ≠ L.revealer → t.parties q = s.parties q := fun q hq ↦ by
    rw [ht, setParty_of_ne _ _ _ hq]
  have hne : ∀ q ∈ L.others, q ≠ L.revealer := fun q hq ↦ (mem_others.mp hq).1
  have hchannel : t.channel = s.channel := ht ▸ rfl
  have hadded : t.added = s.added := ht ▸ rfl
  exact {
    others_await := fun q hq ↦ by
      rw [hother q (hne q hq)]
      exact h.others_await q hq
    shares := fun q hq ↦ by
      rw [hother q (hne q hq), hchannel, hadded]
      exact h.shares q hq
    added := fun q hq ha ↦ by
      rw [hother q (hne q hq)]
      exact h.added q hq (hadded ▸ ha)
    opened := fun q hq ↦ by
      rw [hother q (hne q hq), hself, hchannel, h.opened q hq, hr]
    channels := hchannel ▸ h.channels
    finished := fun q hq out hout ↦ by
      by_cases hqr : q = L.revealer
      · subst hqr
        rw [hself] at hout
        cases hout
      · rw [hother q hqr] at hout
        exact absurd hr (h.finished q hq out hout).1
    early := fun hst ↦ absurd (by rw [hself]) hst
    await := fun _ ↦ by
      have hpending : ∑ p ∈ L.others, L.pending t p = L.nParties - 1 := by
        rw [← card_others, Finset.card_eq_sum_ones]
        exact Finset.sum_congr rfl fun p hp ↦ by rw [pending, hadded, hnot p hp]; rfl
      have hcontributed : ∑ p ∈ L.others, L.contributed t p = 0 :=
        Finset.sum_eq_zero fun p hp ↦ by rw [contributed, hadded, hnot p hp]; rfl
      rw [hself, hpending, hcontributed, Nat.add_zero]
      exact ⟨rfl, (Nat.mod_mod _ _).symm, iff_of_true rfl (by change 0 < L.nParties - 1; omega)⟩
    opens := by
      rw [hself, ht]
      exact h.opens.trans (by rw [hr])
    not_shareAsOpened := ht ▸ h.not_shareAsOpened
    not_openedAsShare := ht ▸ h.not_openedAsShare }

/-- Whoever awaits nothing and gets a message is not the revealer, and the message is the opened
value. -/
theorem Inv.first_opened {s : State L.tableValueByteLength} (h : L.Inv s) {a b : Nat}
    {msg : Message} {rest : List Message} (ho : L.Orderly s (.deliver a b))
    (hr : (s.parties b).result = none) (hc : s.channel a b = msg :: rest)
    (hz : (s.parties b).numPartiesAwaiting = 0) :
    a = L.revealer ∧ b ∈ L.others ∧ (s.parties L.revealer).result ≠ none ∧
      msg = .opened L.openedValue ∧ rest = [] := by
  have hne : b ≠ L.revealer := by
    rintro rfl
    obtain ⟨-, -, hawait⟩ := h.await (ho a rfl)
    exact absurd (hawait.mp hr) (by rw [hz]; exact Nat.lt_irrefl 0)
  rcases h.channels a b (by rw [hc]; exact List.cons_ne_nil _ _) with ⟨-, hb⟩ | ⟨rfl, hb⟩
  · exact absurd hb hne
  · rw [h.opened b hb] at hc
    split at hc
    · next hcond =>
      obtain ⟨hmsg, hrest⟩ := List.cons.inj hc
      exact ⟨rfl, hb, hcond.1, hmsg.symm, hrest.symm⟩
    · cases hc

/-- Whoever awaits something and gets a message is the revealer, and the message is a share that
it has not added. -/
theorem Inv.first_share {s : State L.tableValueByteLength} (h : L.Inv s) {a b : Nat}
    {msg : Message} {rest : List Message} (ho : L.Orderly s (.deliver a b))
    (hc : s.channel a b = msg :: rest) (hz : (s.parties b).numPartiesAwaiting ≠ 0) :
    b = L.revealer ∧ a ∈ L.others ∧ (s.parties L.revealer).state = .childrenComplete ∧
      (s.parties a).state = .childrenComplete ∧ s.added a = false ∧
      msg = .share (L.indexShare a) ∧ rest = [] := by
  rcases h.channels a b (by rw [hc]; exact List.cons_ne_nil _ _) with ⟨ha, rfl⟩ | ⟨-, hb⟩
  · rw [h.shares a ha] at hc
    split at hc
    · next hcond =>
      obtain ⟨hmsg, hrest⟩ := List.cons.inj hc
      exact ⟨rfl, ha, ho a rfl, hcond.1, hcond.2, hmsg.symm, hrest.symm⟩
    · cases hc
  · exact absurd (h.others_await b hb) hz

/-- The revealer awaits one party less when it adds a share. -/
theorem sum_pending_add {s t : State L.tableValueByteLength} {a : Nat}
    (ha : a ∈ L.others) (hnot : s.added a = false)
    (hadded : t.added = Function.update s.added a true) :
    ∑ p ∈ L.others, L.pending t p + 1 = ∑ p ∈ L.others, L.pending s p := by
  have hsum := sum_update L.others s.added (fun _ b ↦ if b = true then 0 else 1) ha true
  rw [hnot] at hsum
  unfold pending
  rw [hadded]
  exact hsum

private theorem sum_contributed_add {s t : State L.tableValueByteLength} {a : Nat}
    (ha : a ∈ L.others) (hnot : s.added a = false)
    (hadded : t.added = Function.update s.added a true) :
    ∑ p ∈ L.others, L.contributed t p = ∑ p ∈ L.others, L.contributed s p + L.indexShare a := by
  have hsum := sum_update L.others s.added (fun p b ↦ if b = true then L.indexShare p else 0)
    ha true
  rw [hnot] at hsum
  unfold contributed
  rw [hadded]
  exact hsum

/-- When nothing is awaited, everything has been added. -/
theorem added_of_sum_pending {s : State L.tableValueByteLength}
    (h : ∑ p ∈ L.others, L.pending s p = 0) {p : Nat} (hp : p ∈ L.others) : s.added p = true := by
  have hzero := (Finset.sum_eq_zero_iff.mp h) p hp
  cases ha : s.added p with
  | true => rfl
  | false => rw [pending, ha] at hzero; cases hzero

/-- A party other than the revealer ends with the opened value. -/
private theorem Inv.finish {s t : State L.tableValueByteLength} (h : L.Inv s) {b : Nat}
    (hb : b ∈ L.others) (hrev : (s.parties L.revealer).result ≠ none)
    (hc : s.channel L.revealer b = [.opened L.openedValue])
    (ht : t = L.setParty { s with
        channel := dequeue s.channel L.revealer b
        shareAsOpened := s.shareAsOpened || (Message.opened L.openedValue).isShare } b
      { s.parties b with
        revealedValue := L.openedValue
        result := some (L.computeFinalShare b L.openedValue) }) :
    L.Inv t := by
  have hne : L.revealer ≠ b := (mem_others.mp hb).1.symm
  have hself : t.parties b = { s.parties b with
      revealedValue := L.openedValue
      result := some (L.computeFinalShare b L.openedValue) } := by
    rw [ht, setParty_self]
  have hother : ∀ q, q ≠ b → t.parties q = s.parties q := fun q hq ↦ by
    rw [ht, setParty_of_ne _ _ _ hq]
  have hstate : ∀ q, (t.parties q).state = (s.parties q).state ∧
      (t.parties q).numPartiesAwaiting = (s.parties q).numPartiesAwaiting := by
    intro q
    by_cases hq : q = b
    · subst hq
      rw [hself]
      exact ⟨rfl, rfl⟩
    · rw [hother q hq]
      exact ⟨rfl, rfl⟩
  have hchannel : t.channel = dequeue s.channel L.revealer b := ht ▸ rfl
  have hadded : t.added = s.added := ht ▸ rfl
  exact {
    others_await := fun q hq ↦ (hstate q).2.trans (h.others_await q hq)
    shares := fun q hq ↦ by
      rw [(hstate q).1, hchannel, hadded, dequeue_apply, if_neg fun hc ↦ hne hc.2]
      exact h.shares q hq
    added := fun q hq ha ↦ (hstate q).1.trans (h.added q hq (hadded ▸ ha))
    opened := fun q hq ↦ by
      rw [hchannel, dequeue_apply, hother _ hne]
      by_cases hqb : q = b
      · subst hqb
        rw [if_pos ⟨rfl, rfl⟩, hc, hself, if_neg fun hcond ↦ nomatch hcond.2]
        rfl
      · rw [if_neg fun hcond ↦ hqb hcond.2, hother q hqb]
        exact h.opened q hq
    channels := fun a' b' hab ↦ by
      rw [hchannel, dequeue_apply] at hab
      split at hab
      · next hcond => exact .inr ⟨hcond.1, hcond.2 ▸ hb⟩
      · exact h.channels a' b' hab
    finished := fun q hq out hout ↦ by
      rw [hother _ hne]
      by_cases hqb : q = b
      · subst hqb
        rw [hself] at hout ⊢
        exact ⟨hrev, rfl, (Option.some.inj hout).symm⟩
      · rw [hother q hqb] at hout ⊢
        exact h.finished q hq out hout
    early := fun hst ↦ by
      rw [hother _ hne, hadded]
      exact h.early (hother _ hne ▸ hst)
    await := fun hst ↦ by
      simp only [hother _ hne, pending, contributed, hadded]
      exact h.await (hother _ hne ▸ hst)
    opens := by
      rw [hother _ hne, ht]
      exact h.opens
    not_shareAsOpened := by
      rw [ht]
      exact (Bool.or_false _).trans h.not_shareAsOpened
    not_openedAsShare := ht ▸ h.not_openedAsShare }

/-- The sum that the revealer keeps grows by the share it reads. -/
private theorem Inv.revealedValue_add {s t : State L.tableValueByteLength} (h : L.Inv s) {a : Nat}
    (ha : a ∈ L.others) (hrev : (s.parties L.revealer).state = .childrenComplete)
    (hnot : s.added a = false) (hadded : t.added = Function.update s.added a true) :
    ((s.parties L.revealer).revealedValue + (Message.share (L.indexShare a)).val) %
        L.info.rModulus =
      (L.indexShare L.revealer + ∑ p ∈ L.others, L.contributed t p) % L.info.rModulus := by
  rw [(h.await hrev).2.1, sum_contributed_add ha hnot hadded, Nat.mod_add_mod, Nat.add_assoc]
  rfl

/-- The channels to the revealer after a share is read. -/
private theorem Inv.shares_dequeue {s : State L.tableValueByteLength} (h : L.Inv s) {a : Nat}
    (hc : s.channel a L.revealer = [.share (L.indexShare a)]) {q : Nat} (hq : q ∈ L.others) :
    dequeue s.channel a L.revealer q L.revealer =
      if (s.parties q).state = .childrenComplete ∧ Function.update s.added a true q = false
        then [.share (L.indexShare q)] else [] := by
  rw [dequeue_apply]
  by_cases hqa : q = a
  · subst hqa
    rw [if_pos ⟨rfl, rfl⟩, hc, Function.update_self, if_neg fun hcond ↦ nomatch hcond.2]
    rfl
  · rw [if_neg fun hcond ↦ hqa hcond.1, Function.update_of_ne hqa]
    exact h.shares q hq

/-- The revealer reads a share that is not the last one. -/
private theorem Inv.add {s t : State L.tableValueByteLength} (h : L.Inv s) {a : Nat}
    (ha : a ∈ L.others) (hr : (s.parties L.revealer).result = none)
    (hrev : (s.parties L.revealer).state = .childrenComplete)
    (hst : (s.parties a).state = .childrenComplete) (hnot : s.added a = false)
    (hc : s.channel a L.revealer = [.share (L.indexShare a)])
    (h1 : 1 < (s.parties L.revealer).numPartiesAwaiting)
    (ht : t = L.setParty { s with
        channel := dequeue s.channel a L.revealer
        added := Function.update s.added a true
        openedAsShare := s.openedAsShare || !(Message.share (L.indexShare a)).isShare } L.revealer
      { s.parties L.revealer with
        revealedValue := ((s.parties L.revealer).revealedValue +
          (Message.share (L.indexShare a)).val) % L.info.rModulus
        numPartiesAwaiting := (s.parties L.revealer).numPartiesAwaiting - 1 }) :
    L.Inv t := by
  have hself : t.parties L.revealer = ⟨.childrenComplete,
      ((s.parties L.revealer).revealedValue + (Message.share (L.indexShare a)).val) %
        L.info.rModulus, (s.parties L.revealer).numPartiesAwaiting - 1, none⟩ := by
    simp only [ht, setParty_self, hr, hrev]
  have hother : ∀ q, q ≠ L.revealer → t.parties q = s.parties q := fun q hq ↦ by
    rw [ht, setParty_of_ne _ _ _ hq]
  have hne : ∀ q ∈ L.others, q ≠ L.revealer := fun q hq ↦ (mem_others.mp hq).1
  have hchannel : t.channel = dequeue s.channel a L.revealer := ht ▸ rfl
  have hadded : t.added = Function.update s.added a true := ht ▸ rfl
  exact {
    others_await := fun q hq ↦ by
      rw [hother q (hne q hq)]
      exact h.others_await q hq
    shares := fun q hq ↦ by
      rw [hother q (hne q hq), hchannel, hadded]
      exact h.shares_dequeue hc hq
    added := fun q hq haq ↦ by
      rw [hother q (hne q hq)]
      by_cases hqa : q = a
      · exact hqa ▸ hst
      · exact h.added q hq (by rwa [hadded, Function.update_of_ne hqa] at haq)
    opened := fun q hq ↦ by
      rw [hother q (hne q hq), hself, hchannel, dequeue_apply,
        if_neg fun hcond ↦ hne q hq hcond.2, h.opened q hq, hr]
    channels := fun a' b' hab ↦ by
      rw [hchannel, dequeue_apply] at hab
      split at hab
      · next hcond => exact .inl ⟨hcond.1 ▸ ha, hcond.2⟩
      · exact h.channels a' b' hab
    finished := fun q hq out hout ↦ by
      by_cases hqr : q = L.revealer
      · subst hqr
        rw [hself] at hout
        cases hout
      · rw [hother q hqr] at hout
        exact absurd hr (h.finished q hq out hout).1
    early := fun hst' ↦ absurd (by rw [hself]) hst'
    await := fun _ ↦ by
      have hpending := sum_pending_add ha hnot hadded
      rw [← (h.await hrev).1] at hpending
      rw [hself]
      refine ⟨?_, h.revealedValue_add ha hrev hnot hadded, iff_of_true rfl ?_⟩
      · change (s.parties L.revealer).numPartiesAwaiting - 1 = _
        omega
      · change 0 < (s.parties L.revealer).numPartiesAwaiting - 1
        omega
    opens := by
      rw [hself, ht]
      exact h.opens.trans (by rw [hr])
    not_shareAsOpened := ht ▸ h.not_shareAsOpened
    not_openedAsShare := by
      rw [ht]
      exact (Bool.or_false _).trans h.not_openedAsShare }

/-- The revealer reads the last share and opens the value. -/
private theorem Inv.reveal {s t : State L.tableValueByteLength} (h : L.Inv s) {a : Nat}
    (ha : a ∈ L.others) (hr : (s.parties L.revealer).result = none)
    (hrev : (s.parties L.revealer).state = .childrenComplete)
    (hst : (s.parties a).state = .childrenComplete) (hnot : s.added a = false)
    (hc : s.channel a L.revealer = [.share (L.indexShare a)])
    (h1 : (s.parties L.revealer).numPartiesAwaiting = 1)
    (ht : t = L.setParty { s with
        channel := L.enqueueOthers (dequeue s.channel a L.revealer) L.revealer
          (.opened (((s.parties L.revealer).revealedValue +
            (Message.share (L.indexShare a)).val) % L.info.rModulus))
        added := Function.update s.added a true
        opens := s.opens + 1
        openedAsShare := s.openedAsShare || !(Message.share (L.indexShare a)).isShare } L.revealer
      { s.parties L.revealer with
        revealedValue := ((s.parties L.revealer).revealedValue +
          (Message.share (L.indexShare a)).val) % L.info.rModulus
        numPartiesAwaiting := 0
        result := some (L.computeFinalShare L.revealer (((s.parties L.revealer).revealedValue +
          (Message.share (L.indexShare a)).val) % L.info.rModulus)) }) :
    L.Inv t := by
  have hadded : t.added = Function.update s.added a true := ht ▸ rfl
  have hpending : ∑ p ∈ L.others, L.pending t p = 0 := by
    have hsum := sum_pending_add ha hnot hadded
    rw [← (h.await hrev).1, h1] at hsum
    omega
  have hall : ∀ q ∈ L.others, t.added q = true := fun q hq ↦ added_of_sum_pending hpending hq
  -- everything is added, so the sum is the opened value
  have hvalue := h.revealedValue_add ha hrev hnot hadded
  have hcontributed : ∑ p ∈ L.others, L.contributed t p = ∑ p ∈ L.others, L.indexShare p :=
    Finset.sum_congr rfl fun p hp ↦ by rw [contributed, hall p hp, if_pos rfl]
  rw [hcontributed, ← openedValue_eq] at hvalue
  rw [hvalue] at ht
  have hself : t.parties L.revealer = ⟨.childrenComplete, L.openedValue, 0,
      some (L.computeFinalShare L.revealer L.openedValue)⟩ := by
    simp only [ht, setParty_self, hrev]
  have hother : ∀ q, q ≠ L.revealer → t.parties q = s.parties q := fun q hq ↦ by
    rw [ht, setParty_of_ne _ _ _ hq]
  have hne : ∀ q ∈ L.others, q ≠ L.revealer := fun q hq ↦ (mem_others.mp hq).1
  have hnone : ∀ q ∈ L.others, (s.parties q).result = none := by
    intro q hq
    cases hres : (s.parties q).result with
    | none => rfl
    | some out => exact absurd hr (h.finished q (mem_others.mp hq).2 out hres).1
  have hchannel : t.channel = L.enqueueOthers (dequeue s.channel a L.revealer) L.revealer
      (.opened L.openedValue) := ht ▸ rfl
  exact {
    others_await := fun q hq ↦ by
      rw [hother q (hne q hq)]
      exact h.others_await q hq
    shares := fun q hq ↦ by
      rw [hother q (hne q hq), hchannel, hadded, enqueueOthers_apply,
        if_neg fun hcond ↦ hne q hq hcond.1]
      exact h.shares_dequeue hc hq
    added := fun q hq haq ↦ by
      rw [hother q (hne q hq)]
      by_cases hqa : q = a
      · exact hqa ▸ hst
      · exact h.added q hq (by rwa [hadded, Function.update_of_ne hqa] at haq)
    opened := fun q hq ↦ by
      rw [hother q (hne q hq), hself, hchannel, enqueueOthers_apply, if_pos ⟨rfl, hq⟩,
        dequeue_apply, if_neg fun hcond ↦ hne q hq hcond.2, h.opened q hq,
        if_neg fun hcond ↦ hcond.1 hr, if_pos ⟨Option.some_ne_none _, hnone q hq⟩]
      rfl
    channels := fun a' b' hab ↦ by
      rw [hchannel, enqueueOthers_apply] at hab
      split at hab
      · next hcond => exact .inr hcond
      · rw [dequeue_apply] at hab
        split at hab
        · next hcond => exact .inl ⟨hcond.1 ▸ ha, hcond.2⟩
        · exact h.channels a' b' hab
    finished := fun q hq out hout ↦ by
      by_cases hqr : q = L.revealer
      · subst hqr
        rw [hself] at hout ⊢
        exact ⟨Option.some_ne_none _, rfl, (Option.some.inj hout).symm⟩
      · rw [hother q hqr] at hout
        exact absurd hr (h.finished q hq out hout).1
    early := fun hst' ↦ absurd (by rw [hself]) hst'
    await := fun _ ↦ by
      rw [hself]
      exact ⟨hpending.symm, by rw [hcontributed, openedValue_eq],
        iff_of_false (Option.some_ne_none _) (Nat.lt_irrefl 0)⟩
    opens := by
      rw [hself, ht]
      change s.opens + 1 = 1
      rw [h.opens, hr]
      rfl
    not_shareAsOpened := ht ▸ h.not_shareAsOpened
    not_openedAsShare := by
      rw [ht]
      exact (Bool.or_false _).trans h.not_openedAsShare }

/-- Every orderly step keeps the invariant. -/
theorem Inv.step {s t : State L.tableValueByteLength} {a : Action} (h : L.Inv s)
    (h2 : 2 ≤ L.nParties) (ho : L.Orderly s a) (hst : L.step s a = some t) : L.Inv t := by
  cases step_cases hst with
  | compare p hp hr hs => exact h.compare hs rfl
  | share p hp hr hs hne => exact h.share (mem_others.mpr ⟨hne, hp⟩) hs rfl
  | await hr hs => exact h.await_others h2 hr hs rfl
  | finish a b msg rest hb hr hc hz =>
    obtain ⟨rfl, hb', hrev, rfl, rfl⟩ := h.first_opened ho hr hc hz
    exact h.finish hb' hrev hc rfl
  | add a b msg rest hb hr hc h1 =>
    obtain ⟨rfl, ha, hrev, hsta, hnot, rfl, rfl⟩ := h.first_share ho hc (by omega)
    exact h.add ha hr hrev hsta hnot hc h1 rfl
  | reveal a b msg rest hb hr hc h1 =>
    obtain ⟨rfl, ha, hrev, hsta, hnot, rfl, rfl⟩ := h.first_share ho hc (by omega)
    exact h.reveal ha hr hrev hsta hnot hc h1 rfl

end Session
end Safrn.Lookup
