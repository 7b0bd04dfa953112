import Mathlib.Data.Nat.ModEq
import Safrn.Base.Grid
import Safrn.Stats.Payload

/-!
# The products of a matched pair of observations

Models `RegressionPayloadCompute` (`dataowner/RegressionPayloadCompute.cpp:27-119`) for the two
parties that hold shares of both payload vectors, and the positions from which the stage
`awaitingBatchedModConvUp` takes its shares (`dataowner/Regression.cpp:660-720`). The output is the
matrix of all products of the independent variables, their products with `y`, and `y * y`, `y`
and `1`.
-/

namespace Safrn.Stats

open Safrn.Base

/-- The output of one party, and the positions written so far. -/
structure Output where
  cols : List Nat
  written : List Nat

/-- An assignment to an element of the output. -/
def Output.write (out : Output) (slot : Nat) (value : Option Nat) : Option Output := do
  let value ← value
  if slot < out.cols.length then some ⟨out.cols.set slot value, out.written ++ [slot]⟩ else none

namespace RegressionInfo

variable (info : RegressionInfo)

section

-- The results of `Multiply` for the two parties, by the position of the result.
variable (multiply : Nat → (Bool → Nat) → (Bool → Nat) → Bool → Nat)

/-- `init` of both parties: the multiplications of one batch, with their results. -/
def multiplyBatch (vec1 vec2 : Bool → List Nat) : Option (Bool → List Nat) :=
  let width := info.verticalDvNumIvs + 1
  forGridM (fun multiplyResults i j ↦ do
    let x₀ ← (vec1 false)[i]?
    let x₁ ← (vec1 true)[i]?
    let y₀ ← (vec2 false)[j]?
    let y₁ ← (vec2 true)[j]?
    let slot := i * width + j
    if slot < info.verticalNonDvNumIvs * width then
      some fun p ↦ (multiplyResults p).set slot
        (multiply slot (fun p ↦ bif p then x₁ else x₀) (fun p ↦ bif p then y₁ else y₀) p)
    else none) info.verticalNonDvNumIvs width
    (fun _ ↦ List.replicate (info.verticalNonDvNumIvs * width) 0)

end

/-- `accessMatrixShare` for `i ≤ j`. -/
def accessUpperShare (vec1 vec2 multiplyResults : List Nat) (i j d d1 : Nat) : Option Nat :=
  if i < d1 ∧ j < d1 then
    vec1[d1 + d1 * (d1 + 1) / 2 - (d1 - i) * (d1 - i + 1) / 2 + (j - i)]?
  else if i < d1 ∧ d1 ≤ j then
    multiplyResults[i * (info.verticalDvNumIvs + 1) + (j - d1)]?
  else
    vec2[(d - d1 + 1) + (d - d1) * (d - d1 + 1) / 2 - (d - i) * (d - i + 1) / 2 + (j - i)]?

/-- `accessMatrixShare`. -/
def accessMatrixShare (vec1 vec2 multiplyResults : List Nat) (i j d d1 : Nat) : Option Nat :=
  if i > j then info.accessUpperShare vec1 vec2 multiplyResults j i d d1
  else info.accessUpperShare vec1 vec2 multiplyResults i j d d1

/-- `handleComplete`. -/
def handleComplete (vec1 vec2 multiplyResults : List Nat) : Option Output := do
  let d := info.numIvs
  let d1 := info.verticalNonDvNumIvs
  let out : Output := ⟨List.replicate (d * d + d + 3) 0, []⟩
  let out ← forGridM (fun out i j ↦
    out.write (i * d + j) (info.accessMatrixShare vec1 vec2 multiplyResults i j d d1)) d d out
  let out ← forRangeM (fun out i ↦
    out.write (d * d + i) multiplyResults[i * (info.verticalDvNumIvs + 1) + d - d1]?) d1 out
  let out ← forRangeM (fun out k ↦
    let i := d1 + k
    out.write (d * d + i)
      vec2[(d - d1 + 1) + (d - d1) * (d - d1 + 1) / 2 + (i - d1)]?) (d - d1) out
  let d2Offset := (d - d1 + 1) + (d - d1) * (d - d1 + 3) / 2
  let out ← out.write (d * d + d) vec2[d2Offset]?
  let out ← out.write (d * d + d + 1) vec2[d2Offset + 1]?
  out.write (d * d + d + 2) vec2[d2Offset + 2]?

/-- `RegressionPayloadCompute` of both parties. -/
def payloadCompute (multiply : Nat → (Bool → Nat) → (Bool → Nat) → Bool → Nat)
    (vec1 vec2 : Bool → List Nat) : Option (Bool → Output) := do
  let multiplyResults ← info.multiplyBatch multiply vec1 vec2
  let out₀ ← info.handleComplete (vec1 false) (vec2 false) (multiplyResults false)
  let out₁ ← info.handleComplete (vec1 true) (vec2 true) (multiplyResults true)
  some fun p ↦ bif p then out₁ else out₀

/-- The shares that the stage `awaitingBatchedModConvUp` takes from the positions of the output. -/
structure StageShares where
  matrixShare : List Nat
  vectorShare : List Nat
  ySquaredShare : Nat
  yShare : Nat
  oneShare : Nat

/-- The assignments of the stage. -/
def readShares (cols : List Nat) : Option StageShares := do
  let d := info.numIvs
  let matrixShare ← collect (d * d) fun i ↦ cols[i]?
  let vectorShare ← collect d fun i ↦ cols[i + d * d]?
  let ySquaredShare ← cols[d * (d + 1)]?
  let yShare ← cols[d * (d + 1) + 1]?
  let oneShare ← cols[d * (d + 1) + 2]?
  some { matrixShare, vectorShare, ySquaredShare, yShare, oneShare }

/-- Row `i` and column `j` of `matrix_and_vector_merged`. -/
def mergedEntry (shares : StageShares) (i j : Nat) : Option Nat :=
  if j < info.numIvs then shares.matrixShare[i * info.numIvs + j]? else shares.vectorShare[i]?

/-! ## Writing the output in order -/

/-- The first `c` positions are written, in order. -/
private def Filled (n : Nat) (g : Nat → Nat) (c : Nat) (out : Output) : Prop :=
  out.cols = (List.range c).map g ++ List.replicate (n - c) 0 ∧ out.written = List.range c

private theorem Filled.write {n c : Nat} {g : Nat → Nat} {out : Output} (h : Filled n g c out)
    (hc : c < n) {slot : Nat} (hslot : slot = c) {value : Option Nat} (hvalue : value = some (g c)) :
    ∃ out', out.write slot value = some out' ∧ Filled n g (c + 1) out' := by
  subst hslot
  obtain ⟨hcols, hwritten⟩ := h
  have hlen : out.cols.length = n := by
    rw [hcols, List.length_append, List.length_map, List.length_range, List.length_replicate]
    omega
  refine ⟨⟨out.cols.set slot (g slot), out.written ++ [slot]⟩, ?_, ?_, ?_⟩
  · simp only [Output.write, hvalue, Option.bind_eq_bind, Option.bind_some, hlen, hc, ↓reduceIte]
  · have hrest : List.replicate (n - slot) 0 = 0 :: List.replicate (n - (slot + 1)) 0 := by
      rw [← List.replicate_succ]
      congr 1
      omega
    simp only [hcols, hrest]
    rw [List.set_append_right _ _ (by simp)]
    simp [List.range_succ]
  · simp only [hwritten, List.range_succ]

/-- What stands in the output: a matrix of `d` rows, a vector, and three numbers. -/
def entry (d : Nat) (matrix : Nat → Nat → Nat) (vector : Nat → Nat) (ySquared y one : Nat)
    (slot : Nat) : Nat :=
  if slot < d * d then matrix (slot / d) (slot % d)
  else if slot < d * d + d then vector (slot - d * d)
  else if slot = d * d + d then ySquared
  else if slot = d * d + d + 1 then y
  else one

section

variable {info : RegressionInfo} {vec1 vec2 multiplyResults : List Nat}
  {matrix : Nat → Nat → Nat} {vector : Nat → Nat} {ySquared y one : Nat}

theorem entry_matrix {d i j : Nat} (hi : i < d) (hj : j < d) :
    entry d matrix vector ySquared y one (i * d + j) = matrix i j := by
  have hlt : i * d + j < d * d := by
    calc i * d + j < (i + 1) * d := by rw [Nat.succ_mul]; exact Nat.add_lt_add_left hj _
      _ ≤ d * d := Nat.mul_le_mul_right d hi
  rw [entry, if_pos hlt, cell_div i hj, cell_mod i hj]

theorem entry_vector {d i : Nat} (hi : i < d) :
    entry d matrix vector ySquared y one (d * d + i) = vector i := by
  simp [entry, hi]

theorem entry_ySquared (d : Nat) :
    entry d matrix vector ySquared y one (d * d + d) = ySquared := by
  simp [entry]

theorem entry_y (d : Nat) : entry d matrix vector ySquared y one (d * d + d + 1) = y := by
  have h₁ : ¬ d * d + d + 1 < d * d := by omega
  have h₂ : ¬ d * d + d + 1 < d * d + d := by omega
  simp [entry, h₁, h₂]

theorem entry_one (d : Nat) : entry d matrix vector ySquared y one (d * d + d + 2) = one := by
  have h₁ : ¬ d * d + d + 2 < d * d := by omega
  have h₂ : ¬ d * d + d + 2 < d * d + d := by omega
  simp [entry, h₁, h₂]

/-- The output is written in order, once at every position. -/
private theorem handleComplete_eq
    (hmatrix : ∀ i < info.numIvs, ∀ j < info.numIvs, info.accessMatrixShare vec1 vec2
      multiplyResults i j info.numIvs info.verticalNonDvNumIvs = some (matrix i j))
    (hcross : ∀ i < info.verticalNonDvNumIvs,
      multiplyResults[i * (info.verticalDvNumIvs + 1) + info.numIvs -
        info.verticalNonDvNumIvs]? = some (vector i))
    (hown : ∀ k < info.verticalDvNumIvs,
      vec2[(info.verticalDvNumIvs + 1) +
        info.verticalDvNumIvs * (info.verticalDvNumIvs + 1) / 2 + k]? =
          some (vector (info.verticalNonDvNumIvs + k)))
    (hySquared : vec2[(info.verticalDvNumIvs + 1) +
      info.verticalDvNumIvs * (info.verticalDvNumIvs + 3) / 2]? = some ySquared)
    (hy : vec2[(info.verticalDvNumIvs + 1) +
      info.verticalDvNumIvs * (info.verticalDvNumIvs + 3) / 2 + 1]? = some y)
    (hone : vec2[(info.verticalDvNumIvs + 1) +
      info.verticalDvNumIvs * (info.verticalDvNumIvs + 3) / 2 + 2]? = some one) :
    ∃ out, info.handleComplete vec1 vec2 multiplyResults = some out ∧
      out.written = List.range (info.numIvs * info.numIvs + info.numIvs + 3) ∧
      out.cols = (List.range (info.numIvs * info.numIvs + info.numIvs + 3)).map
        (entry info.numIvs matrix vector ySquared y one) := by
  have hd : info.numIvs - info.verticalNonDvNumIvs = info.verticalDvNumIvs :=
    Nat.add_sub_cancel _ _
  have hsum : info.numIvs = info.verticalNonDvNumIvs + info.verticalDvNumIvs := Nat.add_comm _ _
  unfold handleComplete
  simp only [hd, Nat.add_sub_cancel_left]
  generalize hdef : info.numIvs = d at *
  let n := d * d + d + 3
  let g := entry d matrix vector ySquared y one
  have hgrid : ∃ out, forGridM (fun out i j ↦ Output.write out (i * d + j)
      (info.accessMatrixShare vec1 vec2 multiplyResults i j d info.verticalNonDvNumIvs)) d d
        ⟨List.replicate (d * d + d + 3) 0, []⟩ = some out ∧ Filled n g (d * d) out := by
    apply forGridM_invariant (Filled n g)
    · exact ⟨rfl, rfl⟩
    · intro i hi j hj out hout
      have hrow : (i + 1) * d ≤ d * d := Nat.mul_le_mul_right d hi
      rw [Nat.succ_mul] at hrow
      apply hout.write (by omega) rfl
      rw [hmatrix i hi j hj]
      exact congrArg some (entry_matrix hi hj).symm
  obtain ⟨out₁, hrun₁, h₁⟩ := hgrid
  have hloop₁ : ∃ out, forRangeM (fun out i ↦ Output.write out (d * d + i)
      multiplyResults[i * (info.verticalDvNumIvs + 1) + d - info.verticalNonDvNumIvs]?)
        info.verticalNonDvNumIvs out₁ = some out ∧
          Filled n g (d * d + info.verticalNonDvNumIvs) out := by
    apply forRangeM_invariant (fun i ↦ Filled n g (d * d + i)) h₁
    intro i hi out hout
    apply hout.write (by omega) rfl
    rw [hcross i hi]
    exact congrArg some (entry_vector (by omega)).symm
  obtain ⟨out₂, hrun₂, h₂⟩ := hloop₁
  have hloop₂ : ∃ out, forRangeM (fun out k ↦ Output.write out
      (d * d + (info.verticalNonDvNumIvs + k))
      vec2[(info.verticalDvNumIvs + 1) +
        info.verticalDvNumIvs * (info.verticalDvNumIvs + 1) / 2 + k]?)
        info.verticalDvNumIvs out₂ = some out ∧
          Filled n g (d * d + info.verticalNonDvNumIvs + info.verticalDvNumIvs) out := by
    apply forRangeM_invariant (fun k ↦ Filled n g (d * d + info.verticalNonDvNumIvs + k)) h₂
    intro k hk out hout
    apply hout.write (by omega) (Nat.add_assoc _ _ _).symm
    rw [hown k hk, Nat.add_assoc]
    exact congrArg some (entry_vector (by omega)).symm
  obtain ⟨out₃, hrun₃, h₃⟩ := hloop₂
  rw [Nat.add_assoc, ← hsum] at h₃
  obtain ⟨out₄, hrun₄, h₄⟩ := h₃.write (by omega) rfl
    (hySquared.trans (congrArg some (entry_ySquared d).symm))
  obtain ⟨out₅, hrun₅, h₅⟩ := h₄.write (by omega) rfl
    (hy.trans (congrArg some (entry_y d).symm))
  obtain ⟨out₆, hrun₆, h₆⟩ := h₅.write (by omega) rfl
    (hone.trans (congrArg some (entry_one d).symm))
  refine ⟨out₆, ?_, h₆.2, ?_⟩
  · simp only [hrun₁, hrun₂, hrun₃, hrun₄, hrun₅, hrun₆, Option.bind_eq_bind, Option.bind_some]
  · rw [h₆.1]
    simp [n, g]

/-- The stage reads the positions where the entries stand. -/
private theorem readShares_eq {cols : List Nat}
    (hcols : cols = (List.range (info.numIvs * info.numIvs + info.numIvs + 3)).map
      (entry info.numIvs matrix vector ySquared y one)) :
    ∃ shares, info.readShares cols = some shares ∧
      (∀ i < info.numIvs, ∀ j < info.numIvs, info.mergedEntry shares i j = some (matrix i j)) ∧
      (∀ i < info.numIvs, info.mergedEntry shares i info.numIvs = some (vector i)) ∧
      shares.ySquaredShare = ySquared ∧ shares.yShare = y ∧ shares.oneShare = one := by
  unfold readShares mergedEntry
  generalize info.numIvs = d at *
  have hget : ∀ slot < d * d + d + 3,
      cols[slot]? = some (entry d matrix vector ySquared y one slot) := by
    intro slot hslot
    rw [hcols, List.getElem?_map, List.getElem?_range hslot]
    rfl
  have hmatrix : collect (d * d) (fun i ↦ cols[i]?) =
      some ((List.range (d * d)).map (entry d matrix vector ySquared y one)) := by
    apply collect_eq
    intro i hi
    exact hget i (by omega)
  have hvector : collect d (fun i ↦ cols[i + d * d]?) = some ((List.range d).map vector) := by
    apply collect_eq
    intro i hi
    rw [Nat.add_comm i, hget _ (by omega), entry_vector hi]
  have hpos : d * (d + 1) = d * d + d := Nat.mul_succ d d
  refine ⟨⟨(List.range (d * d)).map (entry d matrix vector ySquared y one),
    (List.range d).map vector, ySquared, y, one⟩, ?_, ?_, ?_, rfl, rfl, rfl⟩
  · simp only [hmatrix, hvector, hpos, hget (d * d + d) (by omega),
      hget (d * d + d + 1) (by omega), hget (d * d + d + 2) (by omega), Option.bind_eq_bind,
      Option.bind_some, entry_ySquared, entry_y, entry_one]
  · intro i hi j hj
    have hrow : (i + 1) * d ≤ d * d := Nat.mul_le_mul_right d hi
    rw [Nat.succ_mul] at hrow
    rw [if_pos hj, List.getElem?_map, List.getElem?_range (by omega)]
    exact congrArg some (entry_matrix hi hj)
  · intro i hi
    rw [if_neg (Nat.lt_irrefl d), List.getElem?_map, List.getElem?_range hi]
    rfl

end

/-! ## Opening the shares -/

/-- The shares of the two parties add up to the value. -/
def Opens (m : Nat) (share : Bool → Nat) (value : Nat) : Prop :=
  share false + share true ≡ value [MOD m]

/-- The parties hold shares of all columns. -/
structure Shared (m : Nat) (vec : Bool → List Nat) (cols : List Nat) : Prop where
  length : ∀ p, (vec p).length = cols.length
  opens : ∀ k < cols.length, Opens m (fun p ↦ (vec p).getD k 0) (cols.getD k 0)

/-- A column that both parties have. -/
theorem Shared.get {m k value : Nat} {vec : Bool → List Nat} {cols : List Nat}
    (h : Shared m vec cols) (hk : cols[k]? = some value) :
    ∃ share : Bool → Nat, (∀ p, (vec p)[k]? = some (share p)) ∧ Opens m share value := by
  obtain ⟨hlt, hvalue⟩ := List.getElem?_eq_some_iff.mp hk
  refine ⟨fun p ↦ (vec p).getD k 0, ?_, ?_⟩
  · intro p
    have hlt' : k < (vec p).length := by rwa [h.length p]
    simp [hlt']
  · have hopens := h.opens k hlt
    rwa [List.getD_eq_getElem?_getD, hk] at hopens

/-- Each result belongs to the columns of its position. -/
private theorem multiplyBatch_eq {info : RegressionInfo}
    (multiply : Nat → (Bool → Nat) → (Bool → Nat) → Bool → Nat) {vec1 vec2 : Bool → List Nat}
    (h₁ : ∀ p, info.verticalNonDvNumIvs ≤ (vec1 p).length)
    (h₂ : ∀ p, info.verticalDvNumIvs + 1 ≤ (vec2 p).length) :
    ∃ multiplyResults, info.multiplyBatch multiply vec1 vec2 = some multiplyResults ∧
      ∀ i < info.verticalNonDvNumIvs, ∀ j < info.verticalDvNumIvs + 1, ∀ p,
        (multiplyResults p)[i * (info.verticalDvNumIvs + 1) + j]? =
          some (multiply (i * (info.verticalDvNumIvs + 1) + j) (fun p ↦ (vec1 p).getD i 0)
            (fun p ↦ (vec2 p).getD j 0) p) := by
  unfold multiplyBatch
  dsimp only
  generalize hw : info.verticalDvNumIvs + 1 = width at *
  generalize info.verticalNonDvNumIvs = d1 at *
  let result (slot : Nat) (p : Bool) : Nat :=
    multiply slot (fun p ↦ (vec1 p).getD (slot / width) 0)
      (fun p ↦ (vec2 p).getD (slot % width) 0) p
  have hbatch : ∃ multiplyResults, forGridM (fun (multiplyResults : Bool → List Nat) i j ↦ do
      let x₀ ← (vec1 false)[i]?
      let x₁ ← (vec1 true)[i]?
      let y₀ ← (vec2 false)[j]?
      let y₁ ← (vec2 true)[j]?
      if i * width + j < d1 * width then
        some fun p ↦ (multiplyResults p).set (i * width + j)
          (multiply (i * width + j) (fun p ↦ bif p then x₁ else x₀)
            (fun p ↦ bif p then y₁ else y₀) p)
      else none) d1 width (fun _ ↦ List.replicate (d1 * width) 0) = some multiplyResults ∧
        ∀ p, (multiplyResults p).length = d1 * width ∧
          ∀ slot < d1 * width, (multiplyResults p)[slot]? = some (result slot p) := by
    apply forGridM_invariant fun c (multiplyResults : Bool → List Nat) ↦
      ∀ p, (multiplyResults p).length = d1 * width ∧
        ∀ slot < c, (multiplyResults p)[slot]? = some (result slot p)
    · intro p
      exact ⟨List.length_replicate, nofun⟩
    · intro i hi j hj results hresults
      have hrow : (i + 1) * width ≤ d1 * width := Nat.mul_le_mul_right width hi
      rw [Nat.succ_mul] at hrow
      have hslot : i * width + j < d1 * width := by omega
      have hx : ∀ p, (vec1 p)[i]? = some ((vec1 p).getD i 0) := by
        intro p
        have hlt : i < (vec1 p).length := Nat.lt_of_lt_of_le hi (h₁ p)
        simp [hlt]
      have hy : ∀ p, (vec2 p)[j]? = some ((vec2 p).getD j 0) := by
        intro p
        have hlt : j < (vec2 p).length := Nat.lt_of_lt_of_le hj (h₂ p)
        simp [hlt]
      have hfun : ∀ vec : Bool → Nat, (fun p ↦ bif p then vec true else vec false) = vec := by
        intro vec
        funext p
        cases p <;> rfl
      refine ⟨fun p ↦ (results p).set (i * width + j) (result (i * width + j) p), ?_, ?_⟩
      · simp only [hx, hy, Option.bind_eq_bind, Option.bind_some, hslot, ↓reduceIte, result,
          cell_div i hj, cell_mod i hj]
        rw [hfun fun p ↦ (vec1 p).getD i 0, hfun fun p ↦ (vec2 p).getD j 0]
      · intro p
        obtain ⟨hlen, hget⟩ := hresults p
        refine ⟨by rw [List.length_set, hlen], ?_⟩
        intro slot hlt
        rw [List.getElem?_set]
        split
        · next heq =>
          subst heq
          rw [if_pos (by rwa [hlen])]
        · exact hget slot (by omega)
  obtain ⟨multiplyResults, hrun, hget⟩ := hbatch
  refine ⟨multiplyResults, hrun, ?_⟩
  intro i hi j hj p
  have hrow : (i + 1) * width ≤ d1 * width := Nat.mul_le_mul_right width hi
  rw [Nat.succ_mul] at hrow
  rw [(hget p).2 _ (by omega)]
  simp only [result, cell_div i hj, cell_mod i hj]

section

variable {info : RegressionInfo} {modMul : Nat → Nat → Nat → Nat}
  {multiply : Nat → (Bool → Nat) → (Bool → Nat) → Bool → Nat}

/-- The independent variables of a matched pair: those of the other vertical come first. -/
def independent (info : RegressionInfo) (u v : List Nat) (i : Nat) : Nat :=
  if i < info.verticalNonDvNumIvs then u.getD i 0 else v.getD (i - info.verticalNonDvNumIvs) 0

/-- The entries of the stage open to the products of the variables of a matched pair. -/
structure OpensProducts (info : RegressionInfo) (u v : List Nat)
    (shares : Bool → StageShares) : Prop where
  matrix : ∀ i < info.numIvs, ∀ j < info.numIvs, ∃ share : Bool → Nat,
    (∀ p, info.mergedEntry (shares p) i j = some (share p)) ∧
      Opens info.startModulus share (info.independent u v i * info.independent u v j)
  vector : ∀ i < info.numIvs, ∃ share : Bool → Nat,
    (∀ p, info.mergedEntry (shares p) i info.numIvs = some (share p)) ∧
      Opens info.startModulus share
        (info.independent u v i * v.getD info.verticalDvNumIvs 0)
  ySquared : Opens info.startModulus (fun p ↦ (shares p).ySquaredShare)
    (v.getD info.verticalDvNumIvs 0 * v.getD info.verticalDvNumIvs 0)
  y : Opens info.startModulus (fun p ↦ (shares p).yShare) (v.getD info.verticalDvNumIvs 0)
  one : Opens info.startModulus (fun p ↦ (shares p).oneShare) 1

theorem Opens.trans {m value value' : Nat} {share : Bool → Nat} (h : Opens m share value)
    (hv : value ≡ value' [MOD m]) : Opens m share value' := Nat.ModEq.trans h hv

/-- A column of a payload vector stands for the value. -/
def Column (m : Nat) (cols : List Nat) (k value : Nat) : Prop :=
  ∃ c, cols[k]? = some c ∧ c ≡ value [MOD m]

theorem Column.of_eq {m k value : Nat} {cols : List Nat} (h : cols[k]? = some value) :
    Column m cols k value := ⟨value, h, Nat.ModEq.refl _⟩

theorem Column.lt_length {m k value : Nat} {cols : List Nat} (h : Column m cols k value) :
    k < cols.length := by
  obtain ⟨c, hc, -⟩ := h
  exact (List.getElem?_eq_some_iff.mp hc).1

/-- A column that both parties have. -/
theorem Column.get {m k value : Nat} {vec : Bool → List Nat} {cols : List Nat}
    (h : Column m cols k value) (hshared : Shared m vec cols) :
    ∃ share : Bool → Nat, (∀ p, (vec p)[k]? = some (share p)) ∧ Opens m share value := by
  obtain ⟨c, hc, hvalue⟩ := h
  obtain ⟨share, hshare, hopens⟩ := hshared.get hc
  exact ⟨share, hshare, hopens.trans hvalue⟩

/-- The columns of the two payload vectors are the independent variables `x` and the dependent
variable `y` of one observation, their products on each side, and `one`. -/
structure Columns (info : RegressionInfo) (cols₁ cols₂ : List Nat) (x : Nat → Nat)
    (y one : Nat) : Prop where
  length : info.verticalNonDvNumIvs ≤ cols₁.length
  nonDv : ∀ i < info.verticalNonDvNumIvs, Column info.startModulus cols₁ i (x i)
  nonDvProduct : ∀ i j, i ≤ j → j < info.verticalNonDvNumIvs →
    Column info.startModulus cols₁ (info.verticalNonDvNumIvs +
      info.verticalNonDvNumIvs * (info.verticalNonDvNumIvs + 1) / 2 -
        (info.verticalNonDvNumIvs - i) * (info.verticalNonDvNumIvs - i + 1) / 2 + (j - i))
      (x i * x j)
  dv : ∀ i < info.verticalDvNumIvs,
    Column info.startModulus cols₂ i (x (info.verticalNonDvNumIvs + i))
  dependent : Column info.startModulus cols₂ info.verticalDvNumIvs y
  dvProduct : ∀ i j, i ≤ j → j < info.verticalDvNumIvs →
    Column info.startModulus cols₂ ((info.verticalDvNumIvs + 1) +
      info.verticalDvNumIvs * (info.verticalDvNumIvs + 1) / 2 -
        (info.verticalDvNumIvs - i) * (info.verticalDvNumIvs - i + 1) / 2 + (j - i))
      (x (info.verticalNonDvNumIvs + i) * x (info.verticalNonDvNumIvs + j))
  dependentProduct : ∀ i < info.verticalDvNumIvs,
    Column info.startModulus cols₂ ((info.verticalDvNumIvs + 1) +
      info.verticalDvNumIvs * (info.verticalDvNumIvs + 1) / 2 + i)
      (x (info.verticalNonDvNumIvs + i) * y)
  ySquared : Column info.startModulus cols₂ ((info.verticalDvNumIvs + 1) +
    info.verticalDvNumIvs * (info.verticalDvNumIvs + 3) / 2) (y * y)
  yAgain : Column info.startModulus cols₂ ((info.verticalDvNumIvs + 1) +
    info.verticalDvNumIvs * (info.verticalDvNumIvs + 3) / 2 + 1) y
  one : Column info.startModulus cols₂ ((info.verticalDvNumIvs + 1) +
    info.verticalDvNumIvs * (info.verticalDvNumIvs + 3) / 2 + 2) one

/-- The payload vectors of two rows have the columns of their observation. -/
theorem columns_layout {u v : List Nat} (rest₁ rest₂ : List Nat)
    (hmod : ∀ x y, modMul x y info.startModulus ≡ x * y [MOD info.startModulus])
    (hu : u.length = info.verticalNonDvNumIvs) (hv : v.length = info.verticalDvNumIvs + 1) :
    info.Columns (layoutNonDv modMul info u ++ rest₁) (layoutDv modMul info v ++ rest₂)
      (info.independent u v) (v.getD info.verticalDvNumIvs 0) 1 := by
  obtain ⟨hnonDv, hnonDvProduct⟩ := getElem?_layoutNonDv modMul hu rest₁
  obtain ⟨hdv, hdvProduct, hdependentProduct, hlast⟩ := getElem?_layoutDv modMul hv rest₂
  have hleft : ∀ i < info.verticalNonDvNumIvs, info.independent u v i = u.getD i 0 :=
    fun i hi ↦ if_pos hi
  have hright : ∀ i, info.independent u v (info.verticalNonDvNumIvs + i) = v.getD i 0 := by
    intro i
    rw [independent, if_neg (by omega), Nat.add_sub_cancel_left]
  constructor
  · rw [List.length_append, length_layoutNonDv hu]
    omega
  · intro i hi
    rw [hleft i hi]
    exact .of_eq (hnonDv i hi)
  · intro i j hij hj
    rw [hleft i (by omega), hleft j hj]
    exact ⟨_, hnonDvProduct i j hij hj, hmod _ _⟩
  · intro i hi
    rw [hright]
    exact .of_eq (hdv i (by omega))
  · exact .of_eq (hdv _ (Nat.lt_succ_self _))
  · intro i j hij hj
    rw [hright, hright]
    exact ⟨_, hdvProduct i j hij hj, hmod _ _⟩
  · intro i hi
    rw [hright]
    exact ⟨_, hdependentProduct i hi, hmod _ _⟩
  · exact ⟨_, hlast 0 (by omega), hmod _ _⟩
  · exact .of_eq (hlast 1 (by omega))
  · exact .of_eq (hlast 2 (by omega))

/-- Two payloads of zeros have the columns of an observation of zeros. -/
theorem Columns.zeros {cols₁ cols₂ : List Nat} {x : Nat → Nat} {y one : Nat}
    (h : info.Columns cols₁ cols₂ x y one) :
    info.Columns (List.replicate cols₁.length 0) (List.replicate cols₂.length 0)
      (fun _ ↦ 0) 0 0 := by
  have hzero : ∀ {cols : List Nat} {k value : Nat}, Column info.startModulus cols k value →
      Column info.startModulus (List.replicate cols.length 0) k 0 := by
    intro cols k value hcol
    apply Column.of_eq
    rw [List.getElem?_replicate, if_pos hcol.lt_length]
  constructor
  · rw [List.length_replicate]
    exact h.length
  · exact fun i hi ↦ hzero (h.nonDv i hi)
  · exact fun i j hij hj ↦ hzero (h.nonDvProduct i j hij hj)
  · exact fun i hi ↦ hzero (h.dv i hi)
  · exact hzero h.dependent
  · exact fun i j hij hj ↦ hzero (h.dvProduct i j hij hj)
  · exact fun i hi ↦ hzero (h.dependentProduct i hi)
  · exact hzero h.ySquared
  · exact hzero h.yAgain
  · exact hzero h.one

variable {cols₁ cols₂ : List Nat} {x : Nat → Nat} {y one : Nat}
  {vec1 vec2 multiplyResults : Bool → List Nat}

/-- The batch of multiplications opens to the products across the two sides. -/
structure OpensCross (info : RegressionInfo) (multiplyResults : Bool → List Nat) (x : Nat → Nat)
    (y : Nat) : Prop where
  independent : ∀ i < info.verticalNonDvNumIvs, ∀ j < info.verticalDvNumIvs,
    ∃ share : Bool → Nat,
      (∀ p, (multiplyResults p)[i * (info.verticalDvNumIvs + 1) + j]? = some (share p)) ∧
        Opens info.startModulus share (x i * x (info.verticalNonDvNumIvs + j))
  dependent : ∀ i < info.verticalNonDvNumIvs, ∃ share : Bool → Nat,
    (∀ p, (multiplyResults p)[i * (info.verticalDvNumIvs + 1) + info.verticalDvNumIvs]? =
      some (share p)) ∧ Opens info.startModulus share (x i * y)

private theorem multiplyBatch_opens
    (hmultiply : ∀ slot x y,
      Opens info.startModulus (multiply slot x y) ((x false + x true) * (y false + y true)))
    (h : info.Columns cols₁ cols₂ x y one) (h₁ : Shared info.startModulus vec1 cols₁)
    (h₂ : Shared info.startModulus vec2 cols₂) :
    ∃ multiplyResults, info.multiplyBatch multiply vec1 vec2 = some multiplyResults ∧
      info.OpensCross multiplyResults x y := by
  have hle₁ : ∀ p, info.verticalNonDvNumIvs ≤ (vec1 p).length := by
    intro p
    rw [h₁.length p]
    exact h.length
  have hle₂ : ∀ p, info.verticalDvNumIvs + 1 ≤ (vec2 p).length := by
    intro p
    rw [h₂.length p]
    exact h.dependent.lt_length
  obtain ⟨multiplyResults, hbatch, hresults⟩ := multiplyBatch_eq multiply hle₁ hle₂
  have hcross : ∀ i < info.verticalNonDvNumIvs, ∀ j < info.verticalDvNumIvs + 1, ∀ value,
      Column info.startModulus cols₂ j value → ∃ share : Bool → Nat,
        (∀ p, (multiplyResults p)[i * (info.verticalDvNumIvs + 1) + j]? = some (share p)) ∧
          Opens info.startModulus share (x i * value) := by
    intro i hi j hj value hvalue
    obtain ⟨a, ha, haOpens⟩ := (h.nonDv i hi).get h₁
    obtain ⟨b, hb, hbOpens⟩ := hvalue.get h₂
    refine ⟨_, hresults i hi j hj, ?_⟩
    simp only [List.getD_eq_getElem?_getD, ha, hb, Option.getD_some]
    exact (hmultiply _ _ _).trans (haOpens.mul hbOpens)
  refine ⟨multiplyResults, hbatch, ?_, ?_⟩
  · intro i hi j hj
    exact hcross i hi j (by omega) _ (h.dv j hj)
  · intro i hi
    exact hcross i hi _ (Nat.lt_succ_self _) y h.dependent

/-- Every read of the matrix finds shares of the product. -/
private theorem accessUpperShare_opens (h : info.Columns cols₁ cols₂ x y one)
    (h₁ : Shared info.startModulus vec1 cols₁) (h₂ : Shared info.startModulus vec2 cols₂)
    (hcross : info.OpensCross multiplyResults x y) {i j : Nat} (hij : i ≤ j)
    (hj : j < info.numIvs) :
    ∃ share : Bool → Nat,
      (∀ p, info.accessUpperShare (vec1 p) (vec2 p) (multiplyResults p) i j info.numIvs
        info.verticalNonDvNumIvs = some (share p)) ∧
      Opens info.startModulus share (x i * x j) := by
  have hsum : info.numIvs = info.verticalDvNumIvs + info.verticalNonDvNumIvs := rfl
  unfold accessUpperShare
  by_cases hj₁ : j < info.verticalNonDvNumIvs
  · have hi₁ : i < info.verticalNonDvNumIvs := by omega
    obtain ⟨share, hshare, hopens⟩ := (h.nonDvProduct i j hij hj₁).get h₁
    refine ⟨share, ?_, hopens⟩
    intro p
    rw [if_pos ⟨hi₁, hj₁⟩]
    exact hshare p
  · have hj₂ : info.verticalNonDvNumIvs + (j - info.verticalNonDvNumIvs) = j := by omega
    by_cases hi₁ : i < info.verticalNonDvNumIvs
    · obtain ⟨share, hshare, hopens⟩ :=
        hcross.independent i hi₁ (j - info.verticalNonDvNumIvs) (by omega)
      rw [hj₂] at hopens
      refine ⟨share, ?_, hopens⟩
      intro p
      rw [if_neg (fun h ↦ hj₁ h.2), if_pos ⟨hi₁, Nat.le_of_not_lt hj₁⟩]
      exact hshare p
    · have hi₂ : info.verticalNonDvNumIvs + (i - info.verticalNonDvNumIvs) = i := by omega
      obtain ⟨share, hshare, hopens⟩ := (h.dvProduct (i - info.verticalNonDvNumIvs)
        (j - info.verticalNonDvNumIvs) (by omega) (by omega)).get h₂
      rw [hi₂, hj₂] at hopens
      refine ⟨share, ?_, hopens⟩
      intro p
      have hd : info.numIvs - info.verticalNonDvNumIvs = info.verticalDvNumIvs := by omega
      have hdi : info.numIvs - i =
          info.verticalDvNumIvs - (i - info.verticalNonDvNumIvs) := by omega
      have hji : j - i =
          j - info.verticalNonDvNumIvs - (i - info.verticalNonDvNumIvs) := by omega
      rw [if_neg (fun h ↦ hi₁ h.1), if_neg (fun h ↦ hi₁ h.1), hd, hdi, hji]
      exact hshare p

/-- The shares of the products with `y` come from both sides. -/
private theorem vectorShare_opens (h : info.Columns cols₁ cols₂ x y one)
    (h₂ : Shared info.startModulus vec2 cols₂) (hcross : info.OpensCross multiplyResults x y)
    {i : Nat} (hi : i < info.numIvs) :
    ∃ share : Bool → Nat,
      (i < info.verticalNonDvNumIvs → ∀ p, (multiplyResults p)[i * (info.verticalDvNumIvs + 1) +
        info.numIvs - info.verticalNonDvNumIvs]? = some (share p)) ∧
      (info.verticalNonDvNumIvs ≤ i → ∀ p, (vec2 p)[(info.verticalDvNumIvs + 1) +
        info.verticalDvNumIvs * (info.verticalDvNumIvs + 1) / 2 +
          (i - info.verticalNonDvNumIvs)]? = some (share p)) ∧
      Opens info.startModulus share (x i * y) := by
  have hsum : info.numIvs = info.verticalDvNumIvs + info.verticalNonDvNumIvs := rfl
  by_cases hi₁ : i < info.verticalNonDvNumIvs
  · obtain ⟨share, hshare, hopens⟩ := hcross.dependent i hi₁
    refine ⟨share, ?_, ?_, hopens⟩
    · intro _ p
      rw [hsum, ← Nat.add_assoc, Nat.add_sub_cancel]
      exact hshare p
    · intro hle
      exact absurd hi₁ (Nat.not_lt_of_le hle)
  · have hi₂ : info.verticalNonDvNumIvs + (i - info.verticalNonDvNumIvs) = i := by omega
    obtain ⟨share, hshare, hopens⟩ :=
      (h.dependentProduct (i - info.verticalNonDvNumIvs) (by omega)).get h₂
    rw [hi₂] at hopens
    refine ⟨share, ?_, ?_, hopens⟩
    · intro hlt
      exact absurd hlt hi₁
    · intro _
      exact hshare

/-- The matrix is read above its diagonal. -/
private theorem accessMatrixShare_opens
    (hupper : ∀ i j, i ≤ j → j < info.numIvs → ∃ share : Bool → Nat,
      (∀ p, info.accessUpperShare (vec1 p) (vec2 p) (multiplyResults p) i j info.numIvs
        info.verticalNonDvNumIvs = some (share p)) ∧
      Opens info.startModulus share (x i * x j))
    {i j : Nat} (hi : i < info.numIvs) (hj : j < info.numIvs) :
    ∃ share : Bool → Nat,
      (∀ p, info.accessMatrixShare (vec1 p) (vec2 p) (multiplyResults p) i j info.numIvs
        info.verticalNonDvNumIvs = some (share p)) ∧
      Opens info.startModulus share (x i * x j) := by
  unfold accessMatrixShare
  by_cases hij : i > j
  · obtain ⟨share, hshare, hopens⟩ := hupper j i (Nat.le_of_lt hij) hi
    refine ⟨share, fun p ↦ ?_, ?_⟩
    · rw [if_pos hij]
      exact hshare p
    · rw [Nat.mul_comm]
      exact hopens
  · obtain ⟨share, hshare, hopens⟩ := hupper i j (Nat.le_of_not_lt hij) hj
    refine ⟨share, fun p ↦ ?_, hopens⟩
    rw [if_neg hij]
    exact hshare p

/-- The outputs of both parties hold shares of all products of one observation. -/
structure OpensEntries (info : RegressionInfo) (x : Nat → Nat) (y one : Nat)
    (out : Bool → Output) (matrix : Nat → Nat → Bool → Nat) (vector : Nat → Bool → Nat)
    (ySquaredShare yShare oneShare : Bool → Nat) : Prop where
  written : ∀ p, (out p).written = List.range (info.numIvs * info.numIvs + info.numIvs + 3)
  cols : ∀ p, (out p).cols = (List.range (info.numIvs * info.numIvs + info.numIvs + 3)).map
    (entry info.numIvs (fun i j ↦ matrix i j p) (fun i ↦ vector i p) (ySquaredShare p) (yShare p)
      (oneShare p))
  matrix : ∀ i < info.numIvs, ∀ j < info.numIvs,
    Opens info.startModulus (matrix i j) (x i * x j)
  vector : ∀ i < info.numIvs, Opens info.startModulus (vector i) (x i * y)
  ySquared : Opens info.startModulus ySquaredShare (y * y)
  y : Opens info.startModulus yShare y
  one : Opens info.startModulus oneShare one

/-- The entry of the output at a position, for one observation. -/
def productEntry (info : RegressionInfo) (x : Nat → Nat) (y one slot : Nat) : Nat :=
  entry info.numIvs (fun i j ↦ x i * x j) (fun i ↦ x i * y) (y * y) y one slot

theorem productEntry_zero (info : RegressionInfo) (slot : Nat) :
    info.productEntry (fun _ ↦ 0) 0 0 slot = 0 := by
  simp [productEntry, entry]

/-- Every position of the outputs holds shares of its entry. -/
theorem OpensEntries.slot {out : Bool → Output} {matrix : Nat → Nat → Bool → Nat}
    {vector : Nat → Bool → Nat} {ySquaredShare yShare oneShare : Bool → Nat}
    (h : info.OpensEntries x y one out matrix vector ySquaredShare yShare oneShare) {slot : Nat}
    (hslot : slot < info.numIvs * info.numIvs + info.numIvs + 3) :
    ∃ share : Bool → Nat, (∀ p, (out p).cols[slot]? = some (share p)) ∧
      Opens info.startModulus share (info.productEntry x y one slot) := by
  refine ⟨fun p ↦ entry info.numIvs (fun i j ↦ matrix i j p) (fun i ↦ vector i p)
    (ySquaredShare p) (yShare p) (oneShare p) slot, ?_, ?_⟩
  · intro p
    rw [h.cols p, List.getElem?_map, List.getElem?_range hslot]
    rfl
  · have hrow : slot < info.numIvs * info.numIvs → slot / info.numIvs < info.numIvs ∧
        slot % info.numIvs < info.numIvs := by
      intro hlt
      have hpos : 0 < info.numIvs := Nat.pos_of_ne_zero fun h0 ↦ by simp [h0] at hlt
      exact ⟨Nat.div_lt_of_lt_mul hlt, Nat.mod_lt _ hpos⟩
    unfold productEntry entry
    split
    · next hlt => exact h.matrix _ (hrow hlt).1 _ (hrow hlt).2
    · split
      · next _ hlt => exact h.vector _ (by omega)
      · split
        · exact h.ySquared
        · split
          · exact h.y
          · exact h.one

/-- Two payload vectors of zeros. -/
theorem columns_zeros (info : RegressionInfo) :
    info.Columns (List.replicate info.payloadLength 0) (List.replicate info.payloadLength 0)
      (fun _ ↦ 0) 0 0 := by
  let modMul (x y _ : Nat) : Nat := x * y
  have hmod : ∀ x y, modMul x y info.startModulus ≡ x * y [MOD info.startModulus] :=
    fun _ _ ↦ Nat.ModEq.refl _
  have hu : (List.replicate info.verticalNonDvNumIvs 0).length = info.verticalNonDvNumIvs :=
    List.length_replicate
  have hv : (List.replicate (info.verticalDvNumIvs + 1) 0).length =
      info.verticalDvNumIvs + 1 := List.length_replicate
  obtain ⟨hle₁, -⟩ := computePayloadVectorNonDv_eq modMul hu
  obtain ⟨hle₂, -⟩ := computePayloadVectorDv_eq modMul hv
  have hcolumns := columns_layout (List.replicate (info.payloadLength -
      (layoutNonDv modMul info (List.replicate info.verticalNonDvNumIvs 0)).length) 0)
    (List.replicate (info.payloadLength -
      (layoutDv modMul info (List.replicate (info.verticalDvNumIvs + 1) 0)).length) 0)
    hmod hu hv
  have hzeros := hcolumns.zeros
  rwa [List.length_append, List.length_replicate, Nat.add_sub_cancel' hle₁, List.length_append,
    List.length_replicate, Nat.add_sub_cancel' hle₂] at hzeros

/-- `RegressionPayloadCompute` on shares of the columns of an observation. -/
theorem payloadCompute_columns
    (hmultiply : ∀ slot x y,
      Opens info.startModulus (multiply slot x y) ((x false + x true) * (y false + y true)))
    (h : info.Columns cols₁ cols₂ x y one) (h₁ : Shared info.startModulus vec1 cols₁)
    (h₂ : Shared info.startModulus vec2 cols₂) :
    ∃ out matrix vector ySquaredShare yShare oneShare,
      info.payloadCompute multiply vec1 vec2 = some out ∧
        info.OpensEntries x y one out matrix vector ySquaredShare yShare oneShare := by
  obtain ⟨multiplyResults, hbatch, hcross⟩ := multiplyBatch_opens hmultiply h h₁ h₂
  have hmatrix : ∀ i, i < info.numIvs → ∀ j, j < info.numIvs → ∃ share : Bool → Nat,
      (∀ p, info.accessMatrixShare (vec1 p) (vec2 p) (multiplyResults p) i j info.numIvs
        info.verticalNonDvNumIvs = some (share p)) ∧
      Opens info.startModulus share (x i * x j) :=
    fun i hi j hj ↦ accessMatrixShare_opens
      (fun i j hij hj ↦ accessUpperShare_opens h h₁ h₂ hcross hij hj) hi hj
  choose! matrix hmatrix hmatrixOpens using hmatrix
  have hvector := fun i hi ↦ vectorShare_opens (i := i) h h₂ hcross hi
  choose! vector hvectorCross hvectorOwn hvectorOpens using hvector
  obtain ⟨ySquared, hySquared, hySquaredOpens⟩ := h.ySquared.get h₂
  obtain ⟨yShare, hy, hyOpens⟩ := h.yAgain.get h₂
  obtain ⟨oneShare, hone, honeOpens⟩ := h.one.get h₂
  have hsum : info.numIvs = info.verticalDvNumIvs + info.verticalNonDvNumIvs := rfl
  have hout : ∀ p, ∃ out, info.handleComplete (vec1 p) (vec2 p) (multiplyResults p) = some out ∧
      out.written = List.range (info.numIvs * info.numIvs + info.numIvs + 3) ∧
      out.cols = (List.range (info.numIvs * info.numIvs + info.numIvs + 3)).map
        (entry info.numIvs (fun i j ↦ matrix i j p) (fun i ↦ vector i p) (ySquared p) (yShare p)
          (oneShare p)) := by
    intro p
    apply handleComplete_eq
    · intro i hi j hj
      exact hmatrix i hi j hj p
    · intro i hi
      exact hvectorCross i (by omega) hi p
    · intro k hk
      have hown := hvectorOwn (info.verticalNonDvNumIvs + k) (by omega) (by omega) p
      rwa [Nat.add_sub_cancel_left] at hown
    · exact hySquared p
    · exact hy p
    · exact hone p
  choose out hrun hwritten hcols using hout
  refine ⟨out, matrix, vector, ySquared, yShare, oneShare, ?_,
    ⟨hwritten, hcols, hmatrixOpens, hvectorOpens, hySquaredOpens, hyOpens, honeOpens⟩⟩
  unfold payloadCompute
  simp only [hbatch, hrun, Option.bind_eq_bind, Option.bind_some]
  congr 1
  funext p
  cases p <;> rfl

end

/-- The payload vectors keep all that is written to them, every index of `RegressionPayloadCompute`
is in range, every position of its output is written once, and the stage that follows reads shares
of all products at their places. -/
theorem payloadCompute_opens (info : RegressionInfo) (modMul : Nat → Nat → Nat → Nat)
    (multiply : Nat → (Bool → Nat) → (Bool → Nat) → Bool → Nat)
    (hmod : ∀ x y, modMul x y info.startModulus ≡ x * y [MOD info.startModulus])
    (hmultiply : ∀ slot x y,
      Opens info.startModulus (multiply slot x y) ((x false + x true) * (y false + y true)))
    (u v : List Nat) (hu : u.length = info.verticalNonDvNumIvs)
    (hv : v.length = info.verticalDvNumIvs + 1) :
    ∃ payload₁ payload₂, computePayloadVectorNonDv modMul info u = some payload₁ ∧
      computePayloadVectorDv modMul info v = some payload₂ ∧
      payload₁.length = info.payloadLength ∧ payload₂.length = info.payloadLength ∧
      layoutNonDv modMul info u <+: payload₁ ∧ layoutDv modMul info v <+: payload₂ ∧
      ∀ vec1 vec2, Shared info.startModulus vec1 payload₁ →
        Shared info.startModulus vec2 payload₂ →
        ∃ out shares, info.payloadCompute multiply vec1 vec2 = some out ∧
          (∀ p, (out p).written = List.range (info.numIvs * info.numIvs + info.numIvs + 3)) ∧
          (∀ p, info.readShares (out p).cols = some (shares p)) ∧
          info.OpensProducts u v shares := by
  obtain ⟨hlen₁, hpayload₁⟩ := computePayloadVectorNonDv_eq modMul hu
  obtain ⟨hlen₂, hpayload₂⟩ := computePayloadVectorDv_eq modMul hv
  refine ⟨_, _, hpayload₁, hpayload₂, ?_, ?_, List.prefix_append _ _, List.prefix_append _ _, ?_⟩
  · rw [List.length_append, List.length_replicate]
    omega
  · rw [List.length_append, List.length_replicate]
    omega
  intro vec1 vec2 h₁ h₂
  obtain ⟨out, matrix, vector, ySquared, y, one, hrun, hopens⟩ :=
    payloadCompute_columns hmultiply (columns_layout _ _ hmod hu hv) h₁ h₂
  choose shares hshares hmatrixEntry hvectorEntry hySquaredShare hyShare honeShare using
    fun p ↦ readShares_eq (hopens.cols p)
  refine ⟨out, shares, hrun, hopens.written, hshares, ?_⟩
  exact {
    matrix := fun i hi j hj ↦
      ⟨matrix i j, fun p ↦ hmatrixEntry p i hi j hj, hopens.matrix i hi j hj⟩
    vector := fun i hi ↦ ⟨vector i, fun p ↦ hvectorEntry p i hi, hopens.vector i hi⟩
    ySquared := by
      simp only [hySquaredShare]
      exact hopens.ySquared
    y := by
      simp only [hyShare]
      exact hopens.y
    one := by
      simp only [honeShare]
      exact hopens.one }

/-- One independent variable on each side, modulo 7. -/
def oneAndOne : RegressionInfo := ⟨1, 1, 7⟩

theorem payloadCompute_opens_oneAndOne :
    let modMul (x y m : Nat) : Nat := x * y % m
    let multiply (_ : Nat) (x y : Bool → Nat) (p : Bool) : Nat :=
      bif p then 0 else (x false + x true) * (y false + y true)
    ∃ payload₁ payload₂, computePayloadVectorNonDv modMul oneAndOne [3] = some payload₁ ∧
      computePayloadVectorDv modMul oneAndOne [2, 5] = some payload₂ ∧
      payload₁.length = 7 ∧ payload₂.length = 7 ∧
      layoutNonDv modMul oneAndOne [3] <+: payload₁ ∧
      layoutDv modMul oneAndOne [2, 5] <+: payload₂ ∧
      ∀ vec1 vec2, Shared 7 vec1 payload₁ → Shared 7 vec2 payload₂ →
        ∃ out shares, oneAndOne.payloadCompute multiply vec1 vec2 = some out ∧
          (∀ p, (out p).written = List.range 9) ∧
          (∀ p, oneAndOne.readShares (out p).cols = some (shares p)) ∧
          oneAndOne.OpensProducts [3] [2, 5] shares :=
  payloadCompute_opens oneAndOne (fun x y m ↦ x * y % m)
    (fun _ x y p ↦ bif p then 0 else (x false + x true) * (y false + y true))
    (fun x y ↦ Nat.mod_modEq (x * y) 7) (fun _ _ _ ↦ Nat.ModEq.refl _) [3] [2, 5] rfl rfl

example : computePayloadVectorDv (fun x y m ↦ x * y % m) oneAndOne [2, 5] =
    some [2, 5, 4, 3, 4, 5, 1] := by decide

end RegressionInfo
end Safrn.Stats
