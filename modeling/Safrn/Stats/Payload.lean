import Safrn.Base.Triangle

/-!
# The payload of an observation in a regression

Models `computePayloadLength` of `dataowner/RegressionInfo.cpp:14-17` and the payload vectors that
`Regression::computePayloadVectorAndPadList` writes (`dataowner/Regression.cpp:87-144`): the
columns of an observation, the products of its independent variables and, on the side of the
dependent variable `y`, the products with `y`, and `y * y`, `y` and `1`.
-/

namespace Safrn.Stats

open Safrn.Base

/-- `computePayloadLength`. -/
def computePayloadLength (d1 d2 : Nat) : Nat :=
  max (d1 + d1 * (d1 + 1) / 2) ((d2 + 1) + d2 * (d2 + 3) / 2 + 3)

/-- The fields of `RegressionInfo` that the payload depends on. -/
structure RegressionInfo where
  verticalDvNumIvs : Nat
  verticalNonDvNumIvs : Nat
  startModulus : Nat

namespace RegressionInfo

/-- `num_IVs`. -/
def numIvs (info : RegressionInfo) : Nat := info.verticalDvNumIvs + info.verticalNonDvNumIvs

/-- `payloadLength`. -/
def payloadLength (info : RegressionInfo) : Nat :=
  computePayloadLength info.verticalNonDvNumIvs info.verticalDvNumIvs

end RegressionInfo

/-- `std::vector::resize`. -/
def resize (n : Nat) (cols : List Nat) : List Nat :=
  cols.take n ++ List.replicate (n - cols.length) 0

section

variable (modMul : Nat → Nat → Nat → Nat) (info : RegressionInfo)

/-- Append the product of two columns. -/
def pushProduct (cols : List Nat) (i j : Nat) : Option (List Nat) := do
  let x ← cols[i]?
  let y ← cols[j]?
  some (cols ++ [modMul x y info.startModulus])

/-- Append the products of the first `n` columns with one another. -/
def pushProducts (n : Nat) (cols : List Nat) : Option (List Nat) :=
  forRangeM (fun cols i ↦
    forRangeM (fun cols k ↦ pushProduct modMul info cols i (i + k)) (n - i) cols) n cols

/-- The payload vector of an observation of the dependent variable's vertical. -/
def computePayloadVectorDv (cols : List Nat) : Option (List Nat) := do
  let n := info.verticalDvNumIvs
  let cols ← pushProducts modMul info n cols
  let cols ← forRangeM (fun cols i ↦ pushProduct modMul info cols i n) n cols
  let cols ← pushProduct modMul info cols n n
  let y ← cols[n]?
  let cols := cols ++ [y]
  let cols := cols ++ [1]
  some (resize info.payloadLength cols)

/-- The payload vector of an observation of the other vertical. -/
def computePayloadVectorNonDv (cols : List Nat) : Option (List Nat) := do
  let cols ← pushProducts modMul info info.verticalNonDvNumIvs cols
  some (resize info.payloadLength cols)

/-! ## The layout -/

/-- What is written before the vector is resized, on the side of the dependent variable. -/
def layoutDv (v : List Nat) : List Nat :=
  let n := info.verticalDvNumIvs
  let y := v.getD n 0
  v ++ (triangle n (fun i j ↦ modMul (v.getD i 0) (v.getD j 0) info.startModulus) ++
    ((List.range n).map (fun i ↦ modMul (v.getD i 0) y info.startModulus) ++
      [modMul y y info.startModulus, y, 1]))

/-- What is written before the vector is resized, on the other side. -/
def layoutNonDv (u : List Nat) : List Nat :=
  u ++ triangle info.verticalNonDvNumIvs fun i j ↦
    modMul (u.getD i 0) (u.getD j 0) info.startModulus

variable {modMul info}

private theorem pushProduct_eq {cols : List Nat} {i j : Nat} (hi : i < cols.length)
    (hj : j < cols.length) (done : List Nat) :
    pushProduct modMul info (cols ++ done) i j =
      some (cols ++ (done ++ [modMul (cols.getD i 0) (cols.getD j 0) info.startModulus])) := by
  simp [pushProduct, List.getElem?_append_left, hi, hj]

private theorem pushProducts_eq {n : Nat} {cols : List Nat} (hn : n ≤ cols.length) :
    pushProducts modMul info n cols =
      some (cols ++ triangle n fun i j ↦
        modMul (cols.getD i 0) (cols.getD j 0) info.startModulus) := by
  apply forRangeM_triangle
  intro i j hij hj done
  exact pushProduct_eq (by omega) (by omega) done

/-- The loop that appends the products with the dependent variable. -/
private theorem pushDependent_eq {n : Nat} {cols : List Nat} (hn : n < cols.length)
    (done : List Nat) :
    forRangeM (fun cols i ↦ pushProduct modMul info cols i n) n (cols ++ done) =
      some (cols ++ (done ++ (List.range n).map fun i ↦
        modMul (cols.getD i 0) (cols.getD n 0) info.startModulus)) := by
  have hloop : ∃ cols', forRangeM (fun cols i ↦ pushProduct modMul info cols i n) n
      (cols ++ done) = some cols' ∧ cols' = cols ++ (done ++ (List.range n).map fun i ↦
        modMul (cols.getD i 0) (cols.getD n 0) info.startModulus) := by
    apply forRangeM_invariant fun k cols' ↦ cols' = cols ++ (done ++ (List.range k).map fun i ↦
      modMul (cols.getD i 0) (cols.getD n 0) info.startModulus)
    · simp
    · rintro i hi cols' rfl
      refine ⟨_, pushProduct_eq (by omega) hn _, ?_⟩
      simp [List.range_succ]
  obtain ⟨cols', hrun, rfl⟩ := hloop
  exact hrun

theorem length_layoutDv {v : List Nat} (hv : v.length = info.verticalDvNumIvs + 1) :
    (layoutDv modMul info v).length =
      (info.verticalDvNumIvs + 1) + info.verticalDvNumIvs * (info.verticalDvNumIvs + 3) / 2 + 3 := by
  have hhalf : info.verticalDvNumIvs * (info.verticalDvNumIvs + 3) / 2 =
      info.verticalDvNumIvs * (info.verticalDvNumIvs + 1) / 2 + info.verticalDvNumIvs := by
    have h : info.verticalDvNumIvs * (info.verticalDvNumIvs + 3) =
        info.verticalDvNumIvs * (info.verticalDvNumIvs + 1) + 2 * info.verticalDvNumIvs := by ring
    rw [h, Nat.add_mul_div_left _ _ Nat.zero_lt_two]
  simp only [layoutDv, List.length_append, length_triangle, List.length_map, List.length_range,
    List.length_cons, List.length_nil, hv, hhalf]
  omega

theorem length_layoutNonDv {u : List Nat} (hu : u.length = info.verticalNonDvNumIvs) :
    (layoutNonDv modMul info u).length =
      info.verticalNonDvNumIvs + info.verticalNonDvNumIvs * (info.verticalNonDvNumIvs + 1) / 2 := by
  simp only [layoutNonDv, List.length_append, length_triangle, hu]

/-- A vector that is not longer than its new size keeps its elements. -/
theorem resize_eq {n : Nat} {cols : List Nat} (h : cols.length ≤ n) :
    resize n cols = cols ++ List.replicate (n - cols.length) 0 := by
  rw [resize, List.take_of_length_le h]

variable (modMul) in
/-- The resize truncates nothing. -/
theorem computePayloadVectorDv_eq {v : List Nat} (hv : v.length = info.verticalDvNumIvs + 1) :
    (layoutDv modMul info v).length ≤ info.payloadLength ∧
      computePayloadVectorDv modMul info v = some (layoutDv modMul info v ++
        List.replicate (info.payloadLength - (layoutDv modMul info v).length) 0) := by
  have hlen : (layoutDv modMul info v).length ≤ info.payloadLength := by
    rw [length_layoutDv hv]
    exact Nat.le_max_right _ _
  refine ⟨hlen, ?_⟩
  rw [← resize_eq hlen]
  have hn : info.verticalDvNumIvs < v.length := by omega
  simp only [computePayloadVectorDv, pushProducts_eq (Nat.le_of_lt hn), Option.bind_eq_bind,
    Option.bind_some, pushDependent_eq hn, pushProduct_eq hn hn]
  simp [layoutDv, List.getElem?_append_left, hn]

variable (modMul) in
theorem computePayloadVectorNonDv_eq {u : List Nat} (hu : u.length = info.verticalNonDvNumIvs) :
    (layoutNonDv modMul info u).length ≤ info.payloadLength ∧
      computePayloadVectorNonDv modMul info u = some (layoutNonDv modMul info u ++
        List.replicate (info.payloadLength - (layoutNonDv modMul info u).length) 0) := by
  have hlen : (layoutNonDv modMul info u).length ≤ info.payloadLength := by
    rw [length_layoutNonDv hu]
    exact Nat.le_max_left _ _
  refine ⟨hlen, ?_⟩
  rw [← resize_eq hlen]
  simp only [computePayloadVectorNonDv, pushProducts_eq (Nat.le_of_eq hu.symm),
    Option.bind_eq_bind, Option.bind_some]
  rfl

/-! ## Where the columns stand -/

variable (modMul) in
theorem getElem?_layoutNonDv {u : List Nat} (hu : u.length = info.verticalNonDvNumIvs)
    (rest : List Nat) :
    (∀ i < info.verticalNonDvNumIvs,
      (layoutNonDv modMul info u ++ rest)[i]? = some (u.getD i 0)) ∧
    ∀ i j, i ≤ j → j < info.verticalNonDvNumIvs →
      (layoutNonDv modMul info u ++ rest)[info.verticalNonDvNumIvs +
        info.verticalNonDvNumIvs * (info.verticalNonDvNumIvs + 1) / 2 -
          (info.verticalNonDvNumIvs - i) * (info.verticalNonDvNumIvs - i + 1) / 2 + (j - i)]? =
        some (modMul (u.getD i 0) (u.getD j 0) info.startModulus) := by
  unfold layoutNonDv
  generalize info.verticalNonDvNumIvs = d at *
  constructor
  · intro i hi
    have hlt : i < u.length := by omega
    rw [List.append_assoc, List.getElem?_append_left hlt]
    simp [hlt]
  · intro i j hij hj
    have hget := getElem?_triangle hij hj fun i j ↦
      modMul (u.getD i 0) (u.getD j 0) info.startModulus
    have hle : (d - i) * (d - i + 1) / 2 ≤ d * (d + 1) / 2 := half_le (Nat.sub_le d i)
    obtain ⟨hlt, -⟩ := List.getElem?_eq_some_iff.mp hget
    rw [List.append_assoc, List.getElem?_append_right (by omega), hu,
      show d + d * (d + 1) / 2 - (d - i) * (d - i + 1) / 2 + (j - i) - d =
        d * (d + 1) / 2 - (d - i) * (d - i + 1) / 2 + (j - i) by omega,
      List.getElem?_append_left hlt, hget]

variable (modMul) in
theorem getElem?_layoutDv {v : List Nat} (hv : v.length = info.verticalDvNumIvs + 1)
    (rest : List Nat) :
    (∀ i < info.verticalDvNumIvs + 1,
      (layoutDv modMul info v ++ rest)[i]? = some (v.getD i 0)) ∧
    (∀ i j, i ≤ j → j < info.verticalDvNumIvs →
      (layoutDv modMul info v ++ rest)[(info.verticalDvNumIvs + 1) +
        info.verticalDvNumIvs * (info.verticalDvNumIvs + 1) / 2 -
          (info.verticalDvNumIvs - i) * (info.verticalDvNumIvs - i + 1) / 2 + (j - i)]? =
        some (modMul (v.getD i 0) (v.getD j 0) info.startModulus)) ∧
    (∀ i < info.verticalDvNumIvs,
      (layoutDv modMul info v ++ rest)[(info.verticalDvNumIvs + 1) +
        info.verticalDvNumIvs * (info.verticalDvNumIvs + 1) / 2 + i]? =
        some (modMul (v.getD i 0) (v.getD info.verticalDvNumIvs 0) info.startModulus)) ∧
    ∀ i < 3, (layoutDv modMul info v ++ rest)[(info.verticalDvNumIvs + 1) +
      info.verticalDvNumIvs * (info.verticalDvNumIvs + 3) / 2 + i]? =
        [modMul (v.getD info.verticalDvNumIvs 0) (v.getD info.verticalDvNumIvs 0)
          info.startModulus, v.getD info.verticalDvNumIvs 0, 1][i]? := by
  unfold layoutDv
  dsimp only
  generalize info.verticalDvNumIvs = d at *
  have hsplit : d * (d + 3) / 2 = d * (d + 1) / 2 + d := by
    have h : d * (d + 3) = d * (d + 1) + 2 * d := by ring
    rw [h, Nat.add_mul_div_left _ _ Nat.zero_lt_two]
  have htriangle := length_triangle d fun i j ↦
    modMul (v.getD i 0) (v.getD j 0) info.startModulus
  simp only [List.append_assoc]
  refine ⟨?_, ?_, ?_, ?_⟩
  · intro i hi
    have hlt : i < v.length := by omega
    rw [List.getElem?_append_left hlt]
    simp [hlt]
  · intro i j hij hj
    have hget := getElem?_triangle hij hj fun i j ↦
      modMul (v.getD i 0) (v.getD j 0) info.startModulus
    have hle : (d - i) * (d - i + 1) / 2 ≤ d * (d + 1) / 2 := half_le (Nat.sub_le d i)
    obtain ⟨hlt, -⟩ := List.getElem?_eq_some_iff.mp hget
    rw [List.getElem?_append_right (by omega), hv,
      show d + 1 + d * (d + 1) / 2 - (d - i) * (d - i + 1) / 2 + (j - i) - (d + 1) =
        d * (d + 1) / 2 - (d - i) * (d - i + 1) / 2 + (j - i) by omega,
      List.getElem?_append_left hlt, hget]
  · intro i hi
    rw [List.getElem?_append_right (by omega), hv, List.getElem?_append_right (by omega),
      htriangle, show d + 1 + d * (d + 1) / 2 + i - (d + 1) - d * (d + 1) / 2 = i by omega,
      List.getElem?_append_left (by simpa using hi)]
    simp [hi]
  · intro i hi
    rw [List.getElem?_append_right (by omega), hv, List.getElem?_append_right (by omega),
      htriangle, List.getElem?_append_right (by rw [List.length_map, List.length_range]; omega),
      List.length_map, List.length_range, hsplit,
      show d + 1 + (d * (d + 1) / 2 + d) + i - (d + 1) - d * (d + 1) / 2 - d = i by omega,
      List.getElem?_append_left (by simpa using hi)]

end

end Safrn.Stats
