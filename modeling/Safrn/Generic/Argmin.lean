import Safrn.Base.Extremes
import Safrn.Generic.Order

/-!
# Positions of extremes

Models the branches of `ARGMIN`, `ARGMAX` and their internal forms in `MergeValuesViaOperator`
(`Util/data_structures.cpp:3458-3681`). An intermediate result is the extreme with the
characteristic vector of its position. A comparison that is strict leaves a tie to the right
operand, so a chain finds the last position of the extreme.
-/

namespace Safrn.Generic

open Safrn.Base

/-- `ARGMIN`, `ARGMAX` and the forms that keep the extreme for another step. -/
inductive ArgOperation
  | argmin
  | argmax
  | argminInternal
  | argmaxInternal
  deriving DecidableEq

namespace ArgOperation

/-- The operations that look for a minimum. -/
def isMin : ArgOperation → Bool
  | argmin | argminInternal => true
  | argmax | argmaxInternal => false

/-- The operations that keep the extreme. -/
def isInternal : ArgOperation → Bool
  | argminInternal | argmaxInternal => true
  | argmin | argmax => false

/-- The internal form of an operation. -/
def internal (op : ArgOperation) : ArgOperation :=
  if op.isMin then argminInternal else argmaxInternal

/-- The operation on two values that are no vectors. -/
def mergeSingles (op : ArgOperation) (one two : GenericValue) : Option GenericValue := do
  let comparison ←
    (if op.isMin then ComparisonOperation.compLt else .compGt).mergeValuesViaOperator one two
  let firstIsMin ←
    match comparison with
    | .integer n => if n.type = .bool then some (decide (n.value = 1)) else none
    | _ => none
  some (.vector ((if op.isInternal then [if firstIsMin then one else two] else []) ++
    [.bool firstIsMin, .bool !firstIsMin]))

/-- What is put together of two characteristic vectors after `argmin` compared their extremes. -/
def select (op : ArgOperation) (argmin : GenericValue) (one two : List GenericValue) :
    Option GenericValue :=
  match argmin with
  | .vector [value, .integer first, _] =>
    if first.type = .bool then
      let firstIsMin := first.value = 1
      some (.vector ((if op.isInternal then [value] else []) ++
        (if firstIsMin then one else one.map fun _ ↦ .bool false) ++
        (if firstIsMin then two.map fun _ ↦ .bool false else two)))
    else none
  | _ => none

/-- `MergeValuesViaOperator`. A vector holds the extreme and the characteristic vector of its
position; its first entry is compared with that of the other operand, or with the operand. -/
def mergeValuesViaOperator (op : ArgOperation) :
    GenericValue → GenericValue → Option GenericValue
  | .string _ _, _ => none
  | _, .string _ _ => none
  | .vector (one₀ :: one₁ :: oneCast), .vector (two₀ :: two₁ :: twoCast) => do
    let argmin ← op.internal.mergeValuesViaOperator one₀ two₀
    op.select argmin (one₁ :: oneCast) (two₁ :: twoCast)
  | .vector _, .vector _ => none
  | .vector (one₀ :: one₁ :: oneCast), two => do
    let argmin ← op.internal.mergeValuesViaOperator one₀ two
    op.select argmin (one₁ :: oneCast) [.bool true]
  | .vector _, _ => none
  | one, .vector (two₀ :: two₁ :: twoCast) => do
    let argmin ← op.internal.mergeValuesViaOperator one two₀
    op.select argmin [.bool true] (two₁ :: twoCast)
  | _, .vector _ => none
  | one, two => op.mergeSingles one two
termination_by one two => sizeOf one + sizeOf two

@[simp] theorem internal_isMin (op : ArgOperation) : op.internal.isMin = op.isMin := by
  cases op <;> rfl

@[simp] theorem internal_isInternal (op : ArgOperation) : op.internal.isInternal = true := by
  cases op <;> rfl

end ArgOperation

/-! ### One step -/

/-- The relation of being no worse, for a minimum or a maximum. -/
def NoWorse (isMin : Bool) (v w : ℤ) : Prop := if isMin then v ≤ w else w ≤ v

instance (isMin : Bool) : DecidableRel (NoWorse isMin) := fun v w ↦
  inferInstanceAs (Decidable (if isMin = true then v ≤ w else w ≤ v))

instance (isMin : Bool) : IsTrans ℤ (NoWorse isMin) where
  trans u v w huv hvw := by
    cases isMin
    · exact le_trans (α := ℤ) hvw huv
    · exact le_trans (α := ℤ) huv hvw

instance (isMin : Bool) : Std.Total (NoWorse isMin) where
  total v w := by
    cases isMin
    · exact le_total (α := ℤ) w v
    · exact le_total (α := ℤ) v w

/-- A value as it stands in a chain: an integer alone, or an extreme with the characteristic vector
of its position. -/
inductive InChain : GenericValue → GenericInteger → List GenericValue → Prop
  | single (n : GenericInteger) : InChain (.integer n) n [.bool true]
  | extreme (n : GenericInteger) (c : GenericValue) (cs : List GenericValue) :
    InChain (.vector (.integer n :: c :: cs)) n (c :: cs)

/-- The comparison of a step is strict. -/
theorem compare_integers (op : ArgOperation) {m n : GenericInteger} (hm : m.type ≠ .slice)
    (hn : n.type ≠ .slice) :
    (if op.isMin then ComparisonOperation.compLt else .compGt).mergeValuesViaOperator
      (.integer m) (.integer n) = some (.bool (decide (¬NoWorse op.isMin n.value m.value))) := by
  cases h : op.isMin
  · simp [ComparisonOperation.mergeValuesViaOperator, ComparisonOperation.applyIntegers_eq hm hn,
      ComparisonOperation.apply, NoWorse]
  · simp [ComparisonOperation.mergeValuesViaOperator, ComparisonOperation.applyIntegers_eq hm hn,
      ComparisonOperation.apply, NoWorse]

/-- A `SLICE` is not compared. -/
theorem compare_slice (op : ComparisonOperation) {m n : GenericInteger}
    (h : m.type = .slice ∨ n.type = .slice) :
    op.mergeValuesViaOperator (.integer m) (.integer n) = none := by
  rw [ComparisonOperation.mergeValuesViaOperator, ComparisonOperation.applyIntegers,
    GenericInteger.operands_slice h, Option.map_none]

theorem InChain.of_pos {cs : List GenericValue} (n : GenericInteger) (h : 0 < cs.length) :
    InChain (.vector (.integer n :: cs)) n cs := by
  obtain ⟨c, cs, rfl⟩ := List.exists_cons_of_length_pos h
  exact .extreme n c cs

namespace ArgOperation

/-- What a step makes of two extremes and their characteristic vectors. -/
def outcome (op : ArgOperation) (m n : GenericInteger) (cs ds : List GenericValue) :
    GenericValue :=
  .vector ((if op.isInternal then
      [.integer (if NoWorse op.isMin n.value m.value then n else m)] else []) ++
    if NoWorse op.isMin n.value m.value then cs.map (fun _ ↦ .bool false) ++ ds
    else cs ++ ds.map fun _ ↦ .bool false)

theorem mergeSingles_integers (op : ArgOperation) {m n : GenericInteger} (hm : m.type ≠ .slice)
    (hn : n.type ≠ .slice) :
    op.mergeSingles (.integer m) (.integer n) =
      some (op.outcome m n [.bool true] [.bool true]) := by
  rw [mergeSingles, compare_integers op hm hn]
  by_cases h : NoWorse op.isMin n.value m.value
  · simp [h, outcome, GenericValue.bool, GenericInteger.ofInt_value (IntFormat.holds_zero _)]
  · have hone : (GenericInteger.ofInt .bool 1).value = 1 := by decide
    simp [h, outcome, GenericValue.bool, hone]

/-- The internal step shows which of two extremes it took. -/
theorem select_outcome (op : ArgOperation) (m n : GenericInteger) (cs ds : List GenericValue) :
    op.select (op.internal.outcome m n [.bool true] [.bool true]) cs ds =
      some (op.outcome m n cs ds) := by
  have hone : (GenericInteger.ofInt .bool 1).value = 1 := by decide
  have hzero : (GenericInteger.ofInt .bool 0).value = 0 := by decide
  by_cases h : NoWorse op.isMin n.value m.value
  · simp [h, select, outcome, GenericValue.bool, hzero]
  · simp [h, select, outcome, GenericValue.bool, hone]

/-- A step on two values of a chain. -/
theorem mergeValuesViaOperator_inChain (op : ArgOperation) {one two : GenericValue}
    {m n : GenericInteger} {cs ds : List GenericValue} (hone : InChain one m cs)
    (htwo : InChain two n ds) (hm : m.type ≠ .slice) (hn : n.type ≠ .slice) :
    op.mergeValuesViaOperator one two = some (op.outcome m n cs ds) := by
  have hsingle (op : ArgOperation) : op.mergeValuesViaOperator (.integer m) (.integer n) =
      some (op.outcome m n [.bool true] [.bool true]) := by
    rw [mergeValuesViaOperator, mergeSingles_integers op hm hn] <;> simp
  cases hone with
  | single =>
    cases htwo with
    | single => exact hsingle op
    | extreme n d ds =>
      rw [mergeValuesViaOperator, hsingle op.internal, Option.bind_eq_bind, Option.bind_some,
        select_outcome] <;> simp
  | extreme m c cs =>
    cases htwo with
    | single =>
      rw [mergeValuesViaOperator, hsingle op.internal, Option.bind_eq_bind, Option.bind_some,
        select_outcome] <;> simp
    | extreme n d ds =>
      rw [mergeValuesViaOperator, hsingle op.internal, Option.bind_eq_bind, Option.bind_some,
        select_outcome]

/-- A step on a `SLICE` fails. -/
theorem mergeValuesViaOperator_slice (op : ArgOperation) {one two : GenericValue}
    {m n : GenericInteger} {cs ds : List GenericValue} (hone : InChain one m cs)
    (htwo : InChain two n ds) (h : m.type = .slice ∨ n.type = .slice) :
    op.mergeValuesViaOperator one two = none := by
  have hsingle (op : ArgOperation) :
      op.mergeValuesViaOperator (.integer m) (.integer n) = none := by
    rw [mergeValuesViaOperator, mergeSingles, compare_slice _ h] <;> simp
  cases hone with
  | single =>
    cases htwo with
    | single => exact hsingle op
    | extreme n d ds =>
      rw [mergeValuesViaOperator, hsingle op.internal] <;> simp
  | extreme m c cs =>
    cases htwo with
    | single =>
      rw [mergeValuesViaOperator, hsingle op.internal] <;> simp
    | extreme n d ds =>
      rw [mergeValuesViaOperator, hsingle op.internal]
      rfl

/-- The final operation of a direction. -/
def final (isMin : Bool) : ArgOperation := if isMin then argmin else argmax

/-- The operation of a direction between the steps. -/
def between (isMin : Bool) : ArgOperation := if isMin then argminInternal else argmaxInternal

end ArgOperation

/-! ### Chains -/

/-- A way of folding a list of integers. -/
inductive Folding
  | value (n : GenericInteger)
  | step (left right : Folding)

namespace Folding

/-- The list that is folded. -/
def values : Folding → List GenericInteger
  | value n => [n]
  | step left right => left.values ++ right.values

/-- The result of the internal operation at all steps. -/
def chain (isMin : Bool) : Folding → Option GenericValue
  | value n => some (.integer n)
  | step left right => do
    let one ← left.chain isMin
    let two ← right.chain isMin
    (ArgOperation.between isMin).mergeValuesViaOperator one two

/-- The final operation on two parts that the internal one folded. -/
def finish (isMin : Bool) (left right : Folding) : Option GenericValue := do
  let one ← left.chain isMin
  let two ← right.chain isMin
  (ArgOperation.final isMin).mergeValuesViaOperator one two

end Folding

/-- `n` entries, the one at position `i` is 1 and the others are 0. -/
def characteristic (n i : ℕ) : List GenericValue := (List.replicate n (.bool false)).set i (.bool true)

@[simp] theorem length_characteristic (n i : ℕ) : (characteristic n i).length = n := by
  simp [characteristic]

/-- A characteristic vector with zeros behind it. -/
theorem characteristic_append_left {m i : ℕ} (hi : i < m) (n : ℕ) :
    characteristic m i ++ List.replicate n (.bool false) = characteristic (m + n) i := by
  rw [characteristic, characteristic, List.replicate_add, List.set_append_left _ _ (by simpa)]

/-- A characteristic vector with zeros in front of it. -/
theorem characteristic_append_right (m n i : ℕ) :
    List.replicate m (.bool false) ++ characteristic n i = characteristic (m + n) (m + i) := by
  rw [characteristic, characteristic, List.replicate_add, List.set_append_right _ _ (by simp)]
  simp

/-- The position can be read from a characteristic vector. -/
theorem characteristic_injective {n i j : ℕ} (hi : i < n)
    (h : characteristic n i = characteristic n j) : i = j := by
  by_contra hne
  have hentry := congrArg (·[i]?) h
  simp [characteristic, hi, Ne.symm hne] at hentry

namespace Folding

variable {isMin : Bool}

/-- The numbers that are folded. -/
def numbers (t : Folding) : List ℤ := t.values.map GenericInteger.value

@[simp] theorem numbers_step (left right : Folding) :
    (step left right).numbers = left.numbers ++ right.numbers := List.map_append ..

theorem length_numbers (t : Folding) : t.numbers.length = t.values.length := List.length_map ..

/-- The extreme that a step takes and its position. -/
theorem lastAttained_step {xs ys : List ℤ} {k l : ℕ} {m n : GenericInteger}
    (hm : BestAt (NoWorse isMin) xs k m.value) (hk : LastAttained (NoWorse isMin) xs k)
    (hn : BestAt (NoWorse isMin) ys l n.value) (hl : LastAttained (NoWorse isMin) ys l) :
    let right := NoWorse isMin n.value m.value
    BestAt (NoWorse isMin) (xs ++ ys) (if right then xs.length + l else k)
      (if right then n else m).value ∧
    LastAttained (NoWorse isMin) (xs ++ ys) (if right then xs.length + l else k) := by
  intro right
  by_cases h : right
  · rw [if_pos h, if_pos h]
    exact ⟨hm.append_right hn h, hl.append_right hm hn h⟩
  · have hmn := (total_of (NoWorse isMin) m.value n.value).resolve_right h
    rw [if_neg h, if_neg h]
    exact ⟨hm.append_left hn hmn, hk.append_left hm hn h⟩

/-- A step puts characteristic vectors of positions together to one. -/
theorem outcome_characteristic (op : ArgOperation) (m n : GenericInteger) {a k : ℕ} (hk : k < a)
    (b l : ℕ) :
    op.outcome m n (characteristic a k) (characteristic b l) =
      .vector ((if op.isInternal then
          [.integer (if NoWorse op.isMin n.value m.value then n else m)] else []) ++
        characteristic (a + b) (if NoWorse op.isMin n.value m.value then a + l else k)) := by
  have hzero (n i : ℕ) : (characteristic n i).map (fun _ ↦ GenericValue.bool false) =
      List.replicate n (.bool false) := by
    rw [List.map_const', length_characteristic]
  rw [ArgOperation.outcome, hzero, hzero]
  by_cases h : NoWorse op.isMin n.value m.value
  · simp only [if_pos h]
    rw [characteristic_append_right]
  · simp only [if_neg h]
    rw [characteristic_append_left hk]

theorem isMin_final (isMin : Bool) : (ArgOperation.final isMin).isMin = isMin := by
  cases isMin <;> rfl

theorem isMin_between (isMin : Bool) : (ArgOperation.between isMin).isMin = isMin := by
  cases isMin <;> rfl

theorem isInternal_final (isMin : Bool) : (ArgOperation.final isMin).isInternal = false := by
  cases isMin <;> rfl

theorem isInternal_between (isMin : Bool) :
    (ArgOperation.between isMin).isInternal = true := by
  cases isMin <;> rfl

/-- What a chain has computed: the extreme `m` and the characteristic vector of its last
position `k`. -/
structure Chained (isMin : Bool) (t : Folding) (v : GenericValue) (m : GenericInteger) (k : ℕ) :
    Prop where
  chain : t.chain isMin = some v
  inChain : InChain v m (characteristic t.values.length k)
  mem : m ∈ t.values
  best : BestAt (NoWorse isMin) t.numbers k m.value
  last : LastAttained (NoWorse isMin) t.numbers k

/-- Without a `SLICE`, a chain keeps the extreme and its last position. -/
theorem exists_chained (isMin : Bool) (t : Folding) (ht : ∀ n ∈ t.values, n.type ≠ .slice) :
    ∃ v m k, Chained isMin t v m k := by
  induction t with
  | value n =>
    have hself : NoWorse isMin n.value n.value := (total_of _ _ _).elim id id
    have hbest : BestAt (NoWorse isMin) [n.value] 0 n.value := ⟨rfl, by simpa⟩
    refine ⟨.integer n, n, 0, rfl, .single n, List.mem_singleton_self n, hbest, ⟨_, hbest⟩, ?_⟩
    intro j hj
    have hlt := hj.lt_length
    simp only [numbers, values, List.map_cons, List.map_nil, List.length_singleton] at hlt
    omega
  | step left right ihl ihr =>
    obtain ⟨v, m, k, h₁⟩ := ihl fun n hn ↦ ht n (List.mem_append_left _ hn)
    obtain ⟨w, n, l, h₂⟩ := ihr fun n hn ↦ ht n (List.mem_append_right _ hn)
    obtain ⟨hbest, hlast⟩ := lastAttained_step h₁.best h₁.last h₂.best h₂.last
    have hm : m ∈ (step left right).values := List.mem_append_left _ h₁.mem
    have hn : n ∈ (step left right).values := List.mem_append_right _ h₂.mem
    have hk : k < left.values.length := left.length_numbers ▸ h₁.best.lt_length
    have hstep := ArgOperation.mergeValuesViaOperator_inChain (.between isMin) h₁.inChain
      h₂.inChain (ht m hm) (ht n hn)
    rw [outcome_characteristic _ m n hk, isInternal_between, isMin_between, if_pos rfl] at hstep
    rw [← numbers_step, left.length_numbers] at hbest hlast
    refine ⟨_, _, _, ?_, @InChain.of_pos (characteristic _ _) _ ?_, ?_, hbest, hlast⟩
    · rw [chain, h₁.chain, h₂.chain, values, List.length_append]
      exact hstep
    · rw [length_characteristic, values, List.length_append]
      omega
    · split
      · exact hn
      · exact hm

/-- Without a `SLICE`, the last position of the extreme is found. -/
theorem finish_of_no_slice (isMin : Bool) (left right : Folding)
    (ht : ∀ n ∈ left.values ++ right.values, n.type ≠ .slice) :
    ∃ k, LastAttained (NoWorse isMin) (left.numbers ++ right.numbers) k ∧
      finish isMin left right =
        some (.vector (characteristic (left.values ++ right.values).length k)) := by
  obtain ⟨v, m, k, h₁⟩ :=
    exists_chained isMin left fun n hn ↦ ht n (List.mem_append_left _ hn)
  obtain ⟨w, n, l, h₂⟩ :=
    exists_chained isMin right fun n hn ↦ ht n (List.mem_append_right _ hn)
  obtain ⟨-, hlast⟩ := lastAttained_step h₁.best h₁.last h₂.best h₂.last
  have hk : k < left.values.length := left.length_numbers ▸ h₁.best.lt_length
  have hstep := ArgOperation.mergeValuesViaOperator_inChain (.final isMin) h₁.inChain h₂.inChain
    (ht m (List.mem_append_left _ h₁.mem)) (ht n (List.mem_append_right _ h₂.mem))
  rw [outcome_characteristic _ m n hk, isInternal_final, isMin_final] at hstep
  refine ⟨_, hlast, ?_⟩
  rw [finish, h₁.chain, h₂.chain, left.length_numbers, List.length_append]
  exact hstep

/-- A step fails if a `SLICE` is folded in one of its parts, where a part with a `SLICE` has failed
or keeps one. -/
theorem step_slice (op : ArgOperation) {left right : Folding}
    (hleft : left.chain isMin = none ∨ ∃ v n cs, left.chain isMin = some v ∧ InChain v n cs ∧
      ((∃ s ∈ left.values, s.type = .slice) → n.type = .slice))
    (hright : right.chain isMin = none ∨ ∃ v n cs, right.chain isMin = some v ∧ InChain v n cs ∧
      ((∃ s ∈ right.values, s.type = .slice) → n.type = .slice))
    (hs : ∃ s ∈ left.values ++ right.values, s.type = .slice) :
    (do
      let one ← left.chain isMin
      let two ← right.chain isMin
      op.mergeValuesViaOperator one two) = none := by
  obtain hnone | ⟨v, m, cs, hv, hin, hm⟩ := hleft
  · rw [hnone]
    rfl
  obtain hnone | ⟨w, n, ds, hw, hin', hn⟩ := hright
  · rw [hv, hnone]
    rfl
  obtain ⟨s, hs, hslice⟩ := hs
  rw [hv, hw]
  apply ArgOperation.mergeValuesViaOperator_slice op hin hin'
  rcases List.mem_append.mp hs with hs | hs
  · exact .inl (hm ⟨s, hs, hslice⟩)
  · exact .inr (hn ⟨s, hs, hslice⟩)

/-- A chain with a `SLICE` fails or is that `SLICE`. -/
theorem chain_cases (isMin : Bool) (t : Folding) :
    t.chain isMin = none ∨ ∃ v n cs, t.chain isMin = some v ∧ InChain v n cs ∧
      ((∃ s ∈ t.values, s.type = .slice) → n.type = .slice) := by
  induction t with
  | value n =>
    refine .inr ⟨.integer n, n, _, rfl, .single n, ?_⟩
    rintro ⟨s, hs, hslice⟩
    rwa [List.mem_singleton.mp hs] at hslice
  | step left right ihl ihr =>
    by_cases hs : ∃ s ∈ (step left right).values, s.type = .slice
    · exact .inl (step_slice (.between isMin) ihl ihr hs)
    · obtain ⟨v, m, k, h⟩ := exists_chained isMin (step left right) fun n hn hslice ↦
        hs ⟨n, hn, hslice⟩
      exact .inr ⟨v, m, _, h.chain, h.inChain, fun h ↦ absurd h hs⟩

/-- Without a `SLICE`, the position found is the first one if there is one only. -/
theorem finish_first_of_no_slice (isMin : Bool) (left right : Folding)
    (ht : ∀ n ∈ left.values ++ right.values, n.type ≠ .slice) :
    (∃ k, FirstAttained (NoWorse isMin) (left.numbers ++ right.numbers) k ∧
      finish isMin left right =
        some (.vector (characteristic (left.values ++ right.values).length k))) ↔
    AttainedOnce (NoWorse isMin) (left.numbers ++ right.numbers) := by
  obtain ⟨k, hlast, hk⟩ := finish_of_no_slice isMin left right ht
  rw [← hlast.firstAttained_iff]
  refine ⟨fun ⟨j, hj, hfinish⟩ ↦ ?_, fun h ↦ ⟨k, h, hk⟩⟩
  rw [hk, Option.some.injEq, GenericValue.vector.injEq] at hfinish
  have hlt : k < (left.values ++ right.values).length := by
    have hlt := hlast.1.lt_length
    rwa [List.length_append, length_numbers, length_numbers, ← List.length_append] at hlt
  rwa [characteristic_injective hlt hfinish]

/-- A chain ends with the characteristic vector of the first position of the extreme exactly if
there is no `SLICE` and the extreme is attained once. -/
theorem finish_first_iff (isMin : Bool) (left right : Folding) :
    (∃ k, FirstAttained (NoWorse isMin) (left.numbers ++ right.numbers) k ∧
      finish isMin left right =
        some (.vector (characteristic (left.values ++ right.values).length k))) ↔
    (∀ n ∈ left.values ++ right.values, n.type ≠ .slice) ∧
      AttainedOnce (NoWorse isMin) (left.numbers ++ right.numbers) := by
  by_cases hs : ∃ s ∈ left.values ++ right.values, s.type = .slice
  · have hnone : finish isMin left right = none :=
      step_slice (.final isMin) (chain_cases isMin left) (chain_cases isMin right) hs
    obtain ⟨s, hs, hslice⟩ := hs
    rw [hnone]
    exact ⟨fun ⟨_, _, h⟩ ↦ (nomatch h), fun h ↦ absurd hslice (h.1 s hs)⟩
  · have ht : ∀ n ∈ left.values ++ right.values, n.type ≠ .slice :=
      fun n hn hslice ↦ hs ⟨n, hn, hslice⟩
    rw [finish_first_of_no_slice isMin left right ht]
    exact ⟨fun h ↦ ⟨ht, h⟩, fun h ↦ h.2⟩

/-- Of two equal integers, the second one is found. -/
theorem not_finish_first_twoOnes :
    ¬∀ (isMin : Bool) (left right : Folding),
      ∃ k, FirstAttained (NoWorse isMin) (left.numbers ++ right.numbers) k ∧
        finish isMin left right =
          some (.vector (characteristic (left.values ++ right.values).length k)) := by
  intro h
  have hone := h true (.value (.ofInt .int8 1)) (.value (.ofInt .int8 1))
  rw [finish_first_of_no_slice true _ _ (by decide)] at hone
  have hboth : ∀ w ∈ [(1 : ℤ), 1], NoWorse true 1 w := by decide
  have heq := hone 0 1 ⟨1, by decide, hboth⟩ ⟨1, by decide, hboth⟩
  omega

end Folding

end Safrn.Generic
