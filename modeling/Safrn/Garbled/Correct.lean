import Safrn.Garbled.Circuit
import Mathlib.Tactic.IntervalCases

/-!
# Correctness of the garbled equality circuits

One gate of the maker labels two wires and leaves the others alone; a round of the maker
therefore garbles the AND of its five inputs, and the evaluator follows the wires' values
label by label. The random buffer's cursor is `13` bytes a circuit since the last refill.
-/

namespace Safrn.Garbled

open Safrn.Base

/-! ### The maker -/

/-- What making the gate of wire `j` does: `13` bytes a circuit are one flip and four gates. -/
structure GateMade (j : Nat) (st st' : Maker) : Prop where
  offset : st'.offset = st.offset + 3
  outflip : st'.outflip = st.outflip
  stufftosend : st'.stufftosend = st.stufftosend
  frame : ∀ k, k ≠ (wiring j).1 → k ≠ (wiring j).2 →
    st'.equalitytable k = st.equalitytable k
  fst_lt : ∀ v < 2, st'.equalitytable (wiring j).1 v < 2 ^ (seclens j + 1)
  snd_lt : ∀ w < 2, st'.equalitytable (wiring j).2 w < 2 ^ (2 * seclens j)
  gate : ∀ v w : Bool, decodegate (seclens j)
    ![st'.equalitytable (wiring j).1 v.toNat, st'.equalitytable (wiring j).2 w.toNat] =
      st.equalitytable j (v && w).toNat

/-- The two input wires of a gate differ. -/
theorem wiring_ne {j : Nat} (h5 : 5 ≤ j) (h9 : j < 9) : (wiring j).1 ≠ (wiring j).2 := by
  interval_cases j <;> decide

/-- A read below the buffer's end succeeds. -/
theorem Maker.read_ok {st : Maker} {k : Nat} (h : st.offset + k < randbufLength) :
    st.read k = some (st.randbuf (st.offset + k)).toNat := if_pos h

/-- Making a gate succeeds when three bytes are left and the output labels have their width. -/
theorem makeGate_ok {st : Maker} {j : Nat} (h5 : 5 ≤ j) (h9 : j < 9)
    (ho : st.offset + 3 ≤ randbufLength) (hw : ∀ v < 2, st.equalitytable j v < 2 ^ seclens j) :
    ∃ st', st.makeGate j = some st' ∧ GateMade j st st' := by
  have hne := wiring_ne h5 h9
  have hz : ∀ k, (![st.equalitytable j 0, st.equalitytable j 0, st.equalitytable j 0,
      st.equalitytable j 1] : Fin 4 → Nat) k < 2 ^ seclens j := by
    intro k
    match k with
    | 0 | 1 | 2 => exact hw 0 (by decide)
    | 3 => exact hw 1 (by decide)
  rw [Maker.makeGate, Maker.read_ok (by omega), Maker.read_ok (by omega),
    Maker.read_ok (by omega)]
  refine ⟨_, rfl, rfl, rfl, rfl, ?_, ?_, ?_, ?_⟩
  · intro k h1 h2
    simp [Maker.label, h1, h2]
  · intro v hv
    have hl := @encodegate_fst_lt (seclens j) ![st.equalitytable j 0,
      st.equalitytable j 0, st.equalitytable j 0, st.equalitytable j 1]
      (st.randbuf (st.offset + 0)).toNat (st.randbuf (st.offset + 1)).toNat
      (st.randbuf (st.offset + 2)).toNat
    interval_cases v
    · simpa [Maker.label, hne] using hl false
    · simpa [Maker.label, hne] using hl true
  · intro w hw'
    have hl := encodegate_snd_lt hz (st.randbuf (st.offset + 0)).toNat
      (st.randbuf (st.offset + 1)).toNat (st.randbuf (st.offset + 2)).toNat
    interval_cases w
    · simpa [Maker.label] using hl false
    · simpa [Maker.label] using hl true
  · intro v w
    rw [decodegate_encodegate hz (st.randbuf (st.offset + 0)).toNat
      (st.randbuf (st.offset + 1)).toNat (st.randbuf (st.offset + 2)).toNat v w]
    · cases v <;> cases w <;> rfl
    · cases v <;> simp [Maker.label, hne]
    · cases w <;> simp [Maker.label]

/-- The four gates made from a flipped output garble the circuit and use twelve bytes. -/
theorem makeGates_ok {st : Maker} {flip : Nat} (hf : flip < 2)
    (h8 : ∀ v < 2, st.equalitytable 8 v = flip ^^^ v) (ho : st.offset + 12 ≤ randbufLength) :
    ∃ st', st.makeGates = some st' ∧ st'.offset = st.offset + 12 ∧
      st'.outflip = st.outflip ∧ st'.stufftosend = st.stufftosend ∧
      Garbles st'.equalitytable flip := by
  have hw8 : ∀ v < 2, st.equalitytable 8 v < 2 ^ seclens 8 := by
    intro v hv
    rw [h8 v hv]
    exact Nat.xor_lt_two_pow (n := 1) hf hv
  obtain ⟨s₁, e₁, g₁⟩ := makeGate_ok (j := 8) (by decide) (by decide) (by omega) hw8
  have o₁ := g₁.offset
  have hw7 : ∀ v < 2, s₁.equalitytable 7 v < 2 ^ seclens 7 := g₁.snd_lt
  obtain ⟨s₂, e₂, g₂⟩ := makeGate_ok (j := 7) (by decide) (by decide) (by omega) hw7
  have o₂ := g₂.offset
  have hw6 : ∀ v < 2, s₂.equalitytable 6 v < 2 ^ seclens 6 := g₂.fst_lt
  obtain ⟨s₃, e₃, g₃⟩ := makeGate_ok (j := 6) (by decide) (by decide) (by omega) hw6
  have o₃ := g₃.offset
  have hw5 : ∀ v < 2, s₃.equalitytable 5 v < 2 ^ seclens 5 := by
    rw [g₃.frame 5 (by decide) (by decide), g₂.frame 5 (by decide) (by decide)]
    exact g₁.fst_lt
  obtain ⟨s₄, e₄, g₄⟩ := makeGate_ok (j := 5) (by decide) (by decide) (by omega) hw5
  have o₄ := g₄.offset
  -- a wire keeps the labels it got when its gate was made
  have t₃ : ∀ k, 1 < k → s₄.equalitytable k = s₃.equalitytable k :=
    fun k hk ↦ g₄.frame k (by simp [wiring]; omega) (by simp [wiring]; omega)
  have t₂ : ∀ k, 3 < k → s₄.equalitytable k = s₂.equalitytable k := fun k hk ↦
    (t₃ k (by omega)).trans (g₃.frame k (by simp [wiring]; omega) (by simp [wiring]; omega))
  have t₁ : ∀ k, 3 < k → k ≠ 4 → k ≠ 6 → s₄.equalitytable k = s₁.equalitytable k :=
    fun k hk h4 h6 ↦ (t₂ k hk).trans (g₂.frame k h6 h4)
  have t₀ : s₄.equalitytable 8 = st.equalitytable 8 :=
    (t₁ 8 (by decide) (by decide) (by decide)).trans (g₁.frame 8 (by decide) (by decide))
  refine ⟨s₄, by simp [Maker.makeGates, e₁, e₂, e₃, e₄], by omega, ?_, ?_, ?_, ?_, ?_, hf⟩
  · rw [g₄.outflip, g₃.outflip, g₂.outflip, g₁.outflip]
  · rw [g₄.stufftosend, g₃.stufftosend, g₂.stufftosend, g₁.stufftosend]
  · intro j hj5 hj9 v w
    interval_cases j
    · rw [t₃ 5 (by decide)]
      exact g₄.gate v w
    · have h := g₃.gate v w
      rw [← t₃ _ (by decide), ← t₃ _ (by decide)] at h
      rw [t₂ 6 (by decide)]
      exact h
    · have h := g₂.gate v w
      rw [← t₂ _ (by decide), ← t₂ _ (by decide)] at h
      rw [t₁ 7 (by decide) (by decide) (by decide)]
      exact h
    · have h := g₁.gate v w
      rw [← t₁ _ (by decide) (by decide) (by decide),
        ← t₁ _ (by decide) (by decide) (by decide)] at h
      rw [t₀]
      exact h
  · intro j hj
    interval_cases j
    · exact g₄.fst_lt
    · exact g₄.snd_lt
    · rw [t₃ 2 (by decide)]
      exact g₃.fst_lt
    · rw [t₃ 3 (by decide)]
      exact g₃.snd_lt
    · rw [t₂ 4 (by decide)]
      exact g₂.snd_lt
    · rw [t₁ 5 (by decide) (by decide) (by decide)]
      exact g₁.fst_lt
    · rw [t₂ 6 (by decide)]
      exact g₂.fst_lt
    · rw [t₁ 7 (by decide) (by decide) (by decide)]
      exact g₁.snd_lt
    · rw [t₀]
      exact hw8
  · intro v hv
    rw [t₀]
    exact h8 v hv

/-- Sending the input labels of circuit `i` writes its ten cells and nothing below them. -/
theorem send_spec (i n : Nat) (st : Maker) :
    let st' := forRange (Maker.send i) n st
    st'.offset = st.offset ∧ st'.outflip = st.outflip ∧
      st'.equalitytable = st.equalitytable ∧
      (∀ k < i * 10, st'.stufftosend k = st.stufftosend k) ∧
      ∀ j < n, ∀ v < 2, st'.stufftosend ((i * 5 + j) * 2 + v) = st.equalitytable j v % 256 := by
  induction n with
  | zero => exact ⟨rfl, rfl, rfl, fun _ _ ↦ rfl, fun j hj ↦ absurd hj (Nat.not_lt_zero j)⟩
  | succ n ih =>
    obtain ⟨ho, hf, ht, hlow, hnew⟩ := ih
    refine ⟨ho, hf, ht, fun k hk ↦ ?_, fun j hj v hv ↦ ?_⟩
    · simp only [forRange, Maker.send]
      rw [Function.update_of_ne (by omega), Function.update_of_ne (by omega), hlow k hk]
    · simp only [forRange, Maker.send]
      by_cases hjn : j = n
      · subst hjn
        interval_cases v
        · rw [Function.update_of_ne (by omega), Function.update_self, ht]
        · rw [Function.update_self, ht]
      · rw [Function.update_of_ne (by omega), Function.update_of_ne (by omega)]
        exact hnew j (by omega) v hv

/-- What the maker's loop keeps after `i` circuits. -/
structure MakerInv (i : Nat) (st : Maker) : Prop where
  cursor : i % 1000000 ≠ 0 → st.offset = 13 * (i % 1000000)
  sent : ∀ k < i, ∃ T, Garbles T (st.outflip k) ∧
    ∀ j < 5, ∀ v < 2, st.stufftosend ((k * 5 + j) * 2 + v) = T j v
  last : ∀ k, i = k + 1 → Garbles st.equalitytable (st.outflip k)

/-- At the start of a round that reads, the cursor is at the round's own thirteen bytes. -/
theorem refresh_ok (rand : Nat → Nat → UInt8) (m : Nat) {i : Nat} {st : Maker} (hI : MakerInv i st) :
    ∃ st', st.refresh rand m i = some st' ∧ st'.offset = 13 * (i % 1000000) ∧
      st'.outflip = st.outflip ∧ st'.stufftosend = st.stufftosend := by
  have h13 : randbufLength / 13 = 1000000 := rfl
  by_cases hi : i % 1000000 = 0
  · rw [Maker.refresh, h13, if_pos hi, Maker.refill, if_pos (by simp only [randbufLength]; omega)]
    exact ⟨_, rfl, by rw [hi], rfl, rfl⟩
  · rw [Maker.refresh, h13, if_neg hi]
    exact ⟨st, rfl, hI.cursor hi, rfl, rfl⟩

/-- One round of the maker succeeds and keeps the invariant. -/
theorem makeCircuit_ok (rand : Nat → Nat → UInt8) (m i : Nat) {st : Maker}
    (hI : MakerInv i st) :
    ∃ st', Maker.makeCircuit rand m st i = some st' ∧ MakerInv (i + 1) st' := by
  obtain ⟨s₀, e₀, o₀, f₀, w₀⟩ := refresh_ok rand m hI
  have hlt : i % 1000000 < 1000000 := Nat.mod_lt _ (by decide)
  have hlen : randbufLength = 13000000 := rfl
  let flip := (s₀.randbuf (s₀.offset + 0)).toNat &&& 1
  have hflip : flip < 2 := and_mask_lt _ 1
  obtain ⟨s₁, e₁, o₁, f₁, w₁, h₁⟩ : ∃ s₁, s₀.flipOutput i = some s₁ ∧
      s₁.offset = s₀.offset + 1 ∧ s₁.outflip = Function.update s₀.outflip i flip ∧
      s₁.stufftosend = s₀.stufftosend ∧ ∀ v < 2, s₁.equalitytable 8 v = flip ^^^ v := by
    rw [Maker.flipOutput, Maker.read_ok (by omega)]
    refine ⟨_, rfl, rfl, rfl, rfl, fun v hv ↦ ?_⟩
    interval_cases v <;> simp [Maker.label, flip]
  obtain ⟨s₂, e₂, o₂, f₂, w₂, hg⟩ := makeGates_ok hflip h₁ (by omega)
  obtain ⟨o₃, f₃, t₃, hlow, hnew⟩ := send_spec i 5 s₂
  have hout : s₂.outflip = Function.update st.outflip i flip := by rw [f₂, f₁, f₀]
  refine ⟨forRange (Maker.send i) 5 s₂, ?_, ?_, ?_, ?_⟩
  · simp [Maker.makeCircuit, e₀, e₁, e₂]
  · intro hi
    rw [o₃, o₂, o₁, o₀]
    omega
  · intro k hk
    rw [f₃, hout]
    by_cases hki : k = i
    · subst hki
      rw [Function.update_self]
      refine ⟨s₂.equalitytable, hg, fun j hj v hv ↦ ?_⟩
      rw [hnew j hj v hv]
      apply Nat.mod_eq_of_lt
      have hw := hg.width j (by omega) v hv
      exact Nat.lt_of_lt_of_le hw (by interval_cases j <;> decide)
    · rw [Function.update_of_ne hki]
      obtain ⟨T, hT, hsent⟩ := hI.sent k (by omega)
      refine ⟨T, hT, fun j hj v hv ↦ ?_⟩
      rw [hlow _ (by omega), w₂, w₁, w₀]
      exact hsent j hj v hv
  · intro k hk
    obtain rfl : k = i := by omega
    rw [f₃, hout, t₃, Function.update_self]
    exact hg

/-- The maker's loop always succeeds, from any contents of its buffer and arrays. -/
theorem makeCircuits_ok (rand : Nat → Nat → UInt8) (m n : Nat) (st : Maker) :
    ∃ st', makeCircuits rand m n { st with offset := 0 } = some st' ∧ MakerInv n st' := by
  apply forRangeM_invariant MakerInv
  · exact ⟨fun h ↦ absurd rfl h, fun k hk ↦ absurd hk (Nat.not_lt_zero k), fun k hk ↦ by omega⟩
  · exact fun i _ t ht ↦ makeCircuit_ok rand m i ht

/-! ### The evaluator -/

/-- The value of each wire when the inputs are `e`. -/
def wireValue (e : Nat → Bool) : Nat → Bool
  | 5 => e 0 && e 1
  | 6 => e 2 && e 3
  | 7 => (e 2 && e 3) && e 4
  | 8 => (e 0 && e 1) && ((e 2 && e 3) && e 4)
  | j => e j

/-- The table holds the label of its value for each wire below `n`. -/
def Follows (T : Nat → Nat → Nat) (e : Nat → Bool) (n : Nat) (st : Evaluator) : Prop :=
  ∀ j < n, st.equalitytable j = T j (wireValue e j).toNat

/-- Loading the selected input labels starts the simulation. -/
theorem follows_load {T : Nat → Nat → Nat} {e : Nat → Bool} {insec : Nat → Nat} {i : Nat}
    (hin : ∀ j < 5, insec (i * 5 + j) = T j (e j).toNat) (st : Evaluator) :
    Follows T e 5 (forRange (Evaluator.load insec i) 5 st) := by
  have h := forRange_invariant (s := st) (n := 5) (f := Evaluator.load insec i)
    (fun n (st : Evaluator) ↦ ∀ j < n, st.equalitytable j = insec (i * 5 + j))
    (fun j hj ↦ absurd hj (Nat.not_lt_zero j)) (fun n _ t ht j hj ↦ by
      by_cases hjn : j = n
      · subst hjn
        exact Function.update_self ..
      · exact (Function.update_of_ne hjn _ _).trans (ht j (by omega)))
  intro j hj
  rw [h j hj, hin j hj]
  interval_cases j <;> rfl

/-- Evaluating the next gate extends the simulation by its wire. -/
theorem follows_evaluateGate {T : Nat → Nat → Nat} {flip : Nat} (hT : Garbles T flip)
    {e : Nat → Bool} {j : Nat} (h5 : 5 ≤ j) (h9 : j < 9) {st : Evaluator}
    (hst : Follows T e j st) : Follows T e (j + 1) (st.evaluateGate j) := by
  intro k hk
  by_cases hkj : k = j
  · subst hkj
    have hfst : (wiring k).1 < k := by interval_cases k <;> decide
    have hsnd : (wiring k).2 < k := by interval_cases k <;> decide
    have hval : wireValue e k =
        (wireValue e (wiring k).1 && wireValue e (wiring k).2) := by
      interval_cases k
      · rfl
      · rfl
      · rfl
      · rfl
    simp only [Evaluator.evaluateGate, Function.update_self]
    rw [hst _ hfst, hst _ hsnd, hval]
    exact hT.gate k h5 h9 _ _
  · simp only [Evaluator.evaluateGate, Function.update_of_ne hkj]
    exact hst k (by omega)

/-- One round of the evaluator follows all nine wires and stores the flipped AND. -/
theorem evaluateCircuit_spec {T : Nat → Nat → Nat} {flip : Nat} (hT : Garbles T flip)
    {e : Nat → Bool} {insec : Nat → Nat} {i : Nat}
    (hin : ∀ j < 5, insec (i * 5 + j) = T j (e j).toNat) (st : Evaluator) :
    let st' := Evaluator.evaluateCircuit insec st i
    Follows T e 9 st' ∧
      st'.output = Function.update st.output i (flip ^^^ (wireValue e 8).toNat) := by
  have h₅ := follows_evaluateGate hT (by decide) (by decide) (follows_load hin st)
  have h₆ := follows_evaluateGate hT (by decide) (by decide) h₅
  have h₇ := follows_evaluateGate hT (by decide) (by decide) h₆
  have h₈ := follows_evaluateGate hT (by decide) (by decide) h₇
  refine ⟨h₈, ?_⟩
  have hbit : flip ^^^ (wireValue e 8).toNat < 2 :=
    Nat.xor_lt_two_pow (n := 1) hT.flip_lt (Bool.toNat_lt _)
  simp only [Evaluator.evaluateCircuit]
  rw [h₈ 8 (by decide), hT.output _ (Bool.toNat_lt _), Nat.and_one_is_mod,
    Nat.mod_eq_of_lt hbit]
  rfl

/-- What the evaluator's loop keeps after `i` circuits, when it was given the labels that the
bits `e` select. -/
structure EvaluatorInv (mk : Maker) (e : Nat → Nat → Bool) (i : Nat) (st : Evaluator) :
    Prop where
  output : ∀ k < i, st.output k = mk.outflip k ^^^ (wireValue (e k) 8).toNat
  last : ∀ k, i = k + 1 → ∃ T, Garbles T (mk.outflip k) ∧ Follows T (e k) 9 st

/-- The labels that the bits `e` select from what the maker sends. -/
def selectLabels (mk : Maker) (e : Nat → Nat → Bool) (n : Nat) : Nat :=
  mk.stufftosend (n * 2 + (e (n / 5) (n % 5)).toNat)

/-- The evaluator's loop keeps its invariant on the selected labels of a maker's run. -/
theorem evaluate_ok {mk : Maker} {m n : Nat} (hmk : MakerInv m mk) (hn : n ≤ m)
    (e : Nat → Nat → Bool) {insec : Nat → Nat}
    (hin : ∀ k < m, ∀ j < 5, insec (k * 5 + j) = selectLabels mk e (k * 5 + j))
    (st : Evaluator) : EvaluatorInv mk e n (evaluateFullEqualityCircuits insec n st) := by
  apply forRange_invariant (EvaluatorInv mk e)
  · exact ⟨fun k hk ↦ absurd hk (Nat.not_lt_zero k), fun k hk ↦ by omega⟩
  · intro i hi t ht
    obtain ⟨T, hT, hsent⟩ := hmk.sent i (by omega)
    have hlab : ∀ j < 5, insec (i * 5 + j) = T j (e i j).toNat := by
      intro j hj
      rw [hin i (by omega) j hj, selectLabels, show (i * 5 + j) / 5 = i by omega,
        show (i * 5 + j) % 5 = j by omega]
      exact hsent j hj _ (Bool.toNat_lt _)
    obtain ⟨hfol, hout⟩ := evaluateCircuit_spec hT hlab t
    constructor
    · intro k hk
      rw [hout]
      by_cases hki : k = i
      · subst hki
        rw [Function.update_self]
      · rw [Function.update_of_ne hki]
        exact ht.output k (by omega)
    · intro k hk
      obtain rfl : k = i := by omega
      exact ⟨T, hT, hfol⟩

/-- The output wire is the AND of the five inputs. -/
theorem wireValue_eight (e : Nat → Bool) : wireValue e 8 = true ↔ ∀ j < 5, e j = true := by
  simp only [wireValue, Bool.and_eq_true]
  constructor
  · rintro ⟨⟨h0, h1⟩, ⟨h2, h3⟩, h4⟩ j hj
    interval_cases j
    exacts [h0, h1, h2, h3, h4]
  · intro h
    exact ⟨⟨h 0 (by decide), h 1 (by decide)⟩, ⟨h 2 (by decide), h 3 (by decide)⟩,
      h 4 (by decide)⟩

/-- Evaluating `m` made circuits on the labels that the equalities `e` select gives, up to the
maker's flip, whether all five hold; the maker never leaves its buffer, and every label on both
sides has its wire's width. -/
theorem fullEqualityCircuits_correct (rand : Nat → Nat → UInt8) (m : Nat) (mk₀ : Maker)
    (ev₀ : Evaluator) (e : Nat → Nat → Bool) :
    ∃ mk, makeFullEqualityCircuits rand m mk₀ = some mk ∧
      (∀ i < m,
        let out := (evaluateFullEqualityCircuits (selectLabels mk e) m ev₀).output i
        out < 2 ∧ mk.outflip i < 2 ∧ (out ^^^ mk.outflip i = 1 ↔ ∀ j < 5, e i j = true)) ∧
      (∀ i < m, ∃ mk', makeCircuits rand m (i + 1) { mk₀ with offset := 0 } = some mk' ∧
        ∀ j < 9, ∀ v < 2, mk'.equalitytable j v < 2 ^ seclens j) ∧
      ∀ i < m, ∀ j < 9,
        (evaluateFullEqualityCircuits (selectLabels mk e) (i + 1) ev₀).equalitytable j <
          2 ^ seclens j := by
  obtain ⟨mk, hmk, hI⟩ := makeCircuits_ok rand m m mk₀
  have hev : ∀ n ≤ m, EvaluatorInv mk e n
      (evaluateFullEqualityCircuits (selectLabels mk e) n ev₀) :=
    fun n hn ↦ evaluate_ok hI hn e (fun _ _ _ _ ↦ rfl) ev₀
  refine ⟨mk, hmk, fun i hi ↦ ?_, fun i _ ↦ ?_, fun i hi j hj ↦ ?_⟩
  · obtain ⟨T, hT, -⟩ := hI.sent i hi
    have hout := (hev m (Nat.le_refl m)).output i hi
    have hbit := Bool.toNat_lt (wireValue (e i) 8)
    refine ⟨?_, hT.flip_lt, ?_⟩
    · rw [hout]
      exact Nat.xor_lt_two_pow (n := 1) hT.flip_lt hbit
    · rw [hout, Nat.xor_comm, Nat.xor_xor_cancel_left, ← wireValue_eight]
      cases wireValue (e i) 8 <;> decide
  · obtain ⟨mk', hmk', hI'⟩ := makeCircuits_ok rand m (i + 1) mk₀
    exact ⟨mk', hmk', (hI'.last i rfl).width⟩
  · obtain ⟨T, hT, hfol⟩ := (hev (i + 1) hi).last i rfl
    rw [hfol j hj]
    exact hT.width j hj _ (Bool.toNat_lt _)

end Safrn.Garbled
