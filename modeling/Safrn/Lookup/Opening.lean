import Safrn.Lookup.Invariant

/-!
# Opening the index of a table lookup

Under orderly schedules the revealer opens the value once, after it has added every share, and
all parties finish with it. The first step of another kind makes the revealer take a share for
the opened value.
-/

namespace Safrn.Lookup

open Safrn.Base

/-- How many children of the party have yet to complete. -/
def LookupState.size : LookupState → Nat
  | .awaitingCompare => 2
  | .awaitingTypeCastFromBit => 1
  | .childrenComplete => 0

namespace Session

variable (L : Session)

/-- No message was taken for the other kind, the value was opened at most once and after all
shares, and whoever has finished has the opened value. -/
structure OpeningOk (s : State L.tableValueByteLength) : Prop where
  not_shareAsOpened : s.shareAsOpened = false
  not_openedAsShare : s.openedAsShare = false
  opens_le : s.opens ≤ 1
  added : s.opens = 1 → ∀ p ∈ L.others, s.added p = true
  finished : ∀ p < L.nParties, (s.parties p).result ≠ none →
    s.opens = 1 ∧ (s.parties p).revealedValue = L.openedValue

/-- How many children have yet to complete. -/
def childrenSize (parties : Nat → Party L.tableValueByteLength) : Nat :=
  ∑ p ∈ Finset.range L.nParties, (parties p).state.size

/-- How many of the other parties have yet to finish. -/
def unfinishedSize (parties : Nat → Party L.tableValueByteLength) : Nat :=
  ∑ p ∈ L.others, if (parties p).result = none then 1 else 0

/-- The number of steps that are left. -/
def size (s : State L.tableValueByteLength) : Nat :=
  L.childrenSize s.parties + ∑ p ∈ L.others, L.pending s p + L.unfinishedSize s.parties

variable {L}

/-- The invariant says that the opening is in order. -/
theorem Inv.openingOk {s : State L.tableValueByteLength} (h : L.Inv s) : L.OpeningOk s where
  not_shareAsOpened := h.not_shareAsOpened
  not_openedAsShare := h.not_openedAsShare
  opens_le := by
    rw [h.opens]
    split
    · exact Nat.zero_le 1
    · exact Nat.le_refl 1
  added hop p hp := by
    rw [h.opens] at hop
    split at hop
    · cases hop
    · next hr =>
      have hst : (s.parties L.revealer).state = .childrenComplete :=
        Decidable.byContradiction fun hst ↦ hr (h.early hst).2.1
      obtain ⟨hnum, -, hiff⟩ := h.await hst
      have hzero : (s.parties L.revealer).numPartiesAwaiting = 0 :=
        Nat.eq_zero_of_not_pos fun hpos ↦ hr (hiff.mpr hpos)
      exact added_of_sum_pending (hnum ▸ hzero) hp
  finished p hp hr := by
    obtain ⟨out, hout⟩ := Option.ne_none_iff_exists'.mp hr
    obtain ⟨hrev, hval, -⟩ := h.finished p hp out hout
    exact ⟨by rw [h.opens, if_neg hrev], hval⟩

/-! ### Schedules end -/

section Measure

variable {parties : Nat → Party L.tableValueByteLength} {p : Nat}
  {party : Party L.tableValueByteLength}

private theorem childrenSize_lt (hp : p < L.nParties)
    (h : party.state.size < (parties p).state.size) :
    L.childrenSize (Function.update parties p party) < L.childrenSize parties := by
  have hsum := sum_update (Finset.range L.nParties) parties (fun _ party ↦ party.state.size)
    (Finset.mem_range.mpr hp) party
  unfold childrenSize
  omega

private theorem childrenSize_eq (h : party.state = (parties p).state) :
    L.childrenSize (Function.update parties p party) = L.childrenSize parties :=
  sum_update_eq (Finset.range L.nParties) parties (fun _ party ↦ party.state.size) p
    (by rw [h])

private theorem unfinishedSize_eq (h : party.result = (parties p).result) :
    L.unfinishedSize (Function.update parties p party) = L.unfinishedSize parties :=
  sum_update_eq L.others parties (fun _ party ↦ if party.result = none then 1 else 0) p
    (by rw [h])

private theorem unfinishedSize_revealer :
    L.unfinishedSize (Function.update parties L.revealer party) = L.unfinishedSize parties :=
  Finset.sum_congr rfl fun _ hq ↦ by rw [Function.update_of_ne (mem_others.mp hq).1]

private theorem unfinishedSize_lt (hp : p ∈ L.others) (hs : (parties p).result = none)
    (hr : party.result ≠ none) :
    L.unfinishedSize (Function.update parties p party) < L.unfinishedSize parties := by
  have hsum := sum_update L.others parties
    (fun _ party ↦ if party.result = none then 1 else 0) hp party
  rw [if_pos hs, if_neg hr] at hsum
  unfold unfinishedSize
  omega

variable {s t : State L.tableValueByteLength}

private theorem size_lt_of_children (hc : L.childrenSize t.parties < L.childrenSize s.parties)
    (ha : t.added = s.added) (hu : L.unfinishedSize t.parties = L.unfinishedSize s.parties) :
    L.size t < L.size s := by
  simp only [size, pending, ha, hu]
  omega

private theorem size_lt_of_unfinished (hc : L.childrenSize t.parties = L.childrenSize s.parties)
    (ha : t.added = s.added) (hu : L.unfinishedSize t.parties < L.unfinishedSize s.parties) :
    L.size t < L.size s := by
  simp only [size, pending, ha, hc]
  omega

private theorem size_lt_of_added (hc : L.childrenSize t.parties = L.childrenSize s.parties)
    {a : Nat} (ha : a ∈ L.others) (hnot : s.added a = false)
    (hadded : t.added = Function.update s.added a true)
    (hu : L.unfinishedSize t.parties = L.unfinishedSize s.parties) : L.size t < L.size s := by
  have hp := sum_pending_add ha hnot hadded
  simp only [size, hc, hu]
  omega

end Measure

/-- Every orderly step lowers the measure. -/
theorem Inv.size_lt {s t : State L.tableValueByteLength} {a : Action} (h : L.Inv s)
    (ho : L.Orderly s a) (hst : L.step s a = some t) : L.size t < L.size s := by
  cases step_cases hst with
  | compare p hp hr hs =>
    exact size_lt_of_children (childrenSize_lt hp (by rw [hs]; exact Nat.lt_succ_self 1)) rfl
      (unfinishedSize_eq rfl)
  | share p hp hr hs hne =>
    exact size_lt_of_children (childrenSize_lt hp (by rw [hs]; exact Nat.zero_lt_one)) rfl
      (unfinishedSize_eq rfl)
  | await hr hs =>
    exact size_lt_of_children (childrenSize_lt L.revealer_lt (by rw [hs]; exact Nat.zero_lt_one)) rfl
      unfinishedSize_revealer
  | finish a b msg rest hb hr hc hz =>
    obtain ⟨-, hb', -⟩ := h.first_opened ho hr hc hz
    exact size_lt_of_unfinished (childrenSize_eq rfl) rfl
      (unfinishedSize_lt hb' hr (Option.some_ne_none _))
  | add a b msg rest hb hr hc h1 =>
    obtain ⟨rfl, ha, -, -, hnot, -⟩ := h.first_share ho hc (by omega)
    exact size_lt_of_added (childrenSize_eq rfl) ha hnot rfl unfinishedSize_revealer
  | reveal a b msg rest hb hr hc h1 =>
    obtain ⟨rfl, ha, -, -, hnot, -⟩ := h.first_share ho hc (by omega)
    exact size_lt_of_added (childrenSize_eq rfl) ha hnot rfl unfinishedSize_revealer

/-! ### Where schedules end -/

/-- A party that has not finished can complete its children. -/
private theorem step_complete_isSome {s : State L.tableValueByteLength} {p : Nat}
    (hp : p < L.nParties) (hr : (s.parties p).result = none)
    (hs : (s.parties p).state ≠ .childrenComplete) : (L.step s (.complete p)).isSome := by
  simp only [step]
  rw [if_pos ⟨hp, hr⟩]
  unfold handleComplete
  cases hst : (s.parties p).state with
  | awaitingCompare => rfl
  | awaitingTypeCastFromBit => rfl
  | childrenComplete => exact absurd hst hs

/-- A party that has not finished can handle its messages. -/
private theorem step_deliver_isSome {s : State L.tableValueByteLength} {a b : Nat}
    {msg : Message} {rest : List Message} (hb : b < L.nParties)
    (hr : (s.parties b).result = none) (hc : s.channel a b = msg :: rest) :
    (L.step s (.deliver a b)).isSome := by
  simp only [step]
  rw [if_pos ⟨hb, hr⟩, hc]
  rfl

/-- Where no orderly step is possible, every party has finished. -/
theorem Inv.finished_of_stuck {s : State L.tableValueByteLength} (h : L.Inv s)
    (hs : L.orderly.Stuck s) {p : Nat} (hp : p < L.nParties) : (s.parties p).result ≠ none := by
  have hno : ∀ a, L.Orderly s a → ¬ (L.step s a).isSome := by
    intro a ho ha
    obtain ⟨t, ht⟩ := Option.isSome_iff_exists.mp ha
    exact hs a t ⟨ht, ho⟩
  have hstate : ∀ q < L.nParties, (s.parties q).result = none →
      (s.parties q).state = .childrenComplete := fun q hq hr ↦
    Decidable.byContradiction fun hst ↦
      hno (.complete q) (fun _ hd ↦ by cases hd) (step_complete_isSome hq hr hst)
  have hrev : (s.parties L.revealer).result ≠ none := by
    intro hr
    have hst := hstate L.revealer L.revealer_lt hr
    obtain ⟨hnum, -, hiff⟩ := h.await hst
    -- somebody is awaited, and that party's share is on its way
    obtain ⟨q, hq, hpend⟩ := Finset.exists_ne_zero_of_sum_ne_zero
      (Nat.ne_of_gt (hnum ▸ hiff.mp hr))
    have hadded : s.added q = false := by
      cases ha : s.added q with
      | false => rfl
      | true => rw [pending, ha] at hpend; exact absurd rfl hpend
    have hres : (s.parties q).result = none :=
      Decidable.byContradiction fun hres ↦ by
        obtain ⟨out, hout⟩ := Option.ne_none_iff_exists'.mp hres
        exact (h.finished q (mem_others.mp hq).2 out hout).1 hr
    have hc := h.shares q hq
    rw [if_pos ⟨hstate q (mem_others.mp hq).2 hres, hadded⟩] at hc
    exact hno (.deliver q L.revealer) (fun _ _ ↦ hst)
      (step_deliver_isSome L.revealer_lt hr hc)
  intro hr
  by_cases hpr : p = L.revealer
  · exact hrev (hpr ▸ hr)
  · have hc := h.opened p (mem_others.mpr ⟨hpr, hp⟩)
    rw [if_pos ⟨hrev, hr⟩] at hc
    exact hno (.deliver L.revealer p)
      (fun _ hd ↦ absurd (Action.deliver.inj hd).2 hpr) (step_deliver_isSome hp hr hc)

/-- A share that is not orderly is taken for the opened value. -/
theorem Inv.shareAsOpened_of_disorderly {s t : State L.tableValueByteLength} {a : Action}
    (h : L.Inv s) (ho : ¬ L.Orderly s a) (hst : L.step s a = some t) :
    t.shareAsOpened = true := by
  obtain ⟨p, hp⟩ := not_forall.mp ho
  obtain ⟨rfl, hstate⟩ := Classical.not_imp.mp hp
  obtain ⟨hzero, -, -⟩ := h.early hstate
  cases step_cases hst with
  | finish a b msg rest hb hr hc hz =>
    rcases h.channels p L.revealer (by rw [hc]; exact List.cons_ne_nil _ _) with
      ⟨hp', -⟩ | ⟨-, hrev⟩
    · rw [h.shares p hp'] at hc
      split at hc
      · obtain ⟨rfl, -⟩ := List.cons.inj hc
        exact Bool.or_true _
      · cases hc
    · exact absurd rfl (mem_others.mp hrev).1
  | add a b msg rest hb hr hc h1 => omega
  | reveal a b msg rest hb hr hc h1 => omega

/-- With two parties or more and orderly schedules, the opening is in order in every state that
a schedule reaches, schedules are bounded, and where one ends every party has finished with the
opened value. A next step that is not orderly takes a share for the opened value. -/
theorem opening_orderly (L : Session) (h2 : 2 ≤ L.nParties) {s : State L.tableValueByteLength}
    (h : L.orderly.Reachable s) :
    L.OpeningOk s ∧
      (∀ as t, L.orderly.Run L.start as t → as.length ≤ L.size L.start) ∧
      (L.orderly.Stuck s → s.opens = 1 ∧ ∀ p < L.nParties,
        (s.parties p).result ≠ none ∧ (s.parties p).revealedValue = L.openedValue) ∧
      ∀ a t, L.step s a = some t → (t.shareAsOpened = false ↔ L.Orderly s a) := by
  have hstep : ∀ s a t, L.Inv s → L.orderly.step s a t → L.Inv t :=
    fun _ _ _ hi hs ↦ hi.step h2 hs.2 hs.1
  have hinv : L.Inv s := h.invariant (fun t ht ↦ ht ▸ inv_start) hstep
  refine ⟨hinv.openingOk, ?_, ?_, ?_⟩
  · intro as t hr
    exact hr.length_le hstep (fun _ _ _ hi hs ↦ hi.size_lt hs.2 hs.1) inv_start
  · intro hs
    have hfin : ∀ p < L.nParties, (s.parties p).result ≠ none :=
      fun p hp ↦ hinv.finished_of_stuck hs hp
    exact ⟨(hinv.openingOk.finished _ L.revealer_lt (hfin _ L.revealer_lt)).1,
      fun p hp ↦ ⟨hfin p hp, (hinv.openingOk.finished p hp (hfin p hp)).2⟩⟩
  · intro a t ht
    constructor
    · intro hfalse
      by_contra ho
      rw [hinv.shareAsOpened_of_disorderly ho ht] at hfalse
      cases hfalse
    · intro ho
      exact (hinv.step h2 ho ht).not_shareAsOpened

/-- A party alone never finishes: it awaits nobody, and nobody's message comes. -/
theorem alone_never_finishes (L : Session) (h1 : L.nParties = 1)
    {s : State L.tableValueByteLength} (h : L.protocol.Reachable s) :
    (s.parties L.revealer).result = none ∧ ∀ a b, s.channel a b = [] := by
  have hrev : ∀ p < L.nParties, p = L.revealer := fun p hp ↦ by
    have := L.revealer_lt
    omega
  refine h.invariant (P := fun s ↦ (s.parties L.revealer).result = none ∧
    ∀ a b, s.channel a b = []) ?_ ?_
  · rintro t rfl
    exact ⟨rfl, fun _ _ ↦ rfl⟩
  · intro s a t ⟨hres, hempty⟩ hst
    cases step_cases hst with
    | compare p hp hr hs =>
      obtain rfl := hrev p hp
      exact ⟨by rw [setParty_self]; exact hr, hempty⟩
    | share p hp hr hs hne => exact absurd (hrev p hp) hne
    | await hr hs => exact ⟨by rw [setParty_self]; exact hr, hempty⟩
    | finish a b msg rest hb hr hc hz => rw [hempty] at hc; cases hc
    | add a b msg rest hb hr hc h1 => rw [hempty] at hc; cases hc
    | reveal a b msg rest hb hr hc h1 => rw [hempty] at hc; cases hc

end Session

/-- A table of three rows, shared modulo ten. -/
def smallInfo : RandomTableLookupInfo := ⟨10, 3, by decide, by decide⟩

/-- The draws for the second party. -/
def smallDraws (_ : Nat) : smallInfo.Draw := ⟨7, fun i ↦ BitVec.ofNat 8 (0xfe + i), by decide⟩

/-- Two parties look up row `0` of one byte under the rotation `2`; party `0` reveals. -/
def smallLookup : Session where
  nParties := 2
  revealer := 0
  revealer_lt := by decide
  info := smallInfo
  tableValueByteLength := 1
  tableData i _ := BitVec.ofNat 8 (0x11 * (i + 1))
  locationShare p := if p = 0 then 4 else 6
  randomTable := RandomTableLookupInfo.generate 2 ⟨2, by decide⟩ smallDraws
  compareShare p := if p = 0 then 1 else 0
  typeCastShare p := if p = 0 then 8 else 3
  output_p_value_shares _ := []

/-- A schedule in which the share of party `1` arrives last. -/
def smallSchedule : List Action :=
  [.complete 1, .complete 0, .complete 1, .complete 0, .deliver 1 0, .deliver 0 1]

/-- The small lookup at the end of its schedule. -/
theorem opening_orderly_smallLookup :
    ∃ s, smallLookup.orderly.Run smallLookup.start smallSchedule s ∧
      smallLookup.OpeningOk s ∧ s.opens = 1 ∧ (s.parties 1).revealedValue = 1 := by
  obtain ⟨s, hs⟩ := Option.isSome_iff_exists.mp (show (Machine.execute
    (fun s a ↦ if smallLookup.Orderly s a then smallLookup.step s a else none)
    smallLookup.start smallSchedule).isSome = true by decide)
  have hend : (Machine.execute
      (fun s a ↦ if smallLookup.Orderly s a then smallLookup.step s a else none)
      smallLookup.start smallSchedule).map
        (fun s ↦ (s.opens, (s.parties 1).revealedValue)) = some (1, 1) := by decide
  rw [hs] at hend
  have hvals := Prod.mk.inj (Option.some.inj hend)
  have hrun : smallLookup.orderly.Run smallLookup.start smallSchedule s :=
    Machine.run_restrict_of_execute hs
  exact ⟨s, hrun, (smallLookup.opening_orderly (by decide) ⟨_, _, rfl, hrun⟩).1, hvals⟩

/-- The children of party `1` complete, and its share arrives before those of the revealer do. -/
theorem openingOk_not_invariant :
    ¬ ∀ (L : Session) (s : State L.tableValueByteLength), 2 ≤ L.nParties →
      L.protocol.Reachable s → L.OpeningOk s := by
  intro h
  obtain ⟨s, hs⟩ := Option.isSome_iff_exists.mp (show (Machine.execute smallLookup.step
    smallLookup.start [.complete 1, .complete 1, .deliver 1 0]).isSome = true by decide)
  have hconfused : (Machine.execute smallLookup.step smallLookup.start
      [.complete 1, .complete 1, .deliver 1 0]).map (·.shareAsOpened) = some true := by decide
  rw [hs] at hconfused
  have htrue : s.shareAsOpened = true := Option.some.inj hconfused
  have hok := h smallLookup s (by decide) ⟨_, _, rfl, Machine.run_of_execute hs⟩
  rw [hok.not_shareAsOpened] at htrue
  cases htrue

end Safrn.Lookup
