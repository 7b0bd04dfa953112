import Mathlib.Data.List.Basic

/-!
# The columns that a query names

Models the lexicon of a study (`JSON/Config/StudyConfig.h:36-47`), as far as the setup of a query
reads it, and `findPayloadRegression` (`StartupRegression.cpp:18-71`), which sorts the variables of
a regression into the payload columns of the two joined verticals.
-/

namespace Safrn.Setup

/-- `Vertical`, with the names of its columns. -/
structure Vertical where
  verticalIndex : Nat
  columns : List String

/-- `ColumnSpec`. -/
structure ColumnSpec where
  vertical : Nat
  column : Nat
  deriving DecidableEq

/-- The columns of a `LinearRegressionFunction`. -/
structure LinearRegressionFunction where
  indepVars : List ColumnSpec
  depVar : ColumnSpec

/-- `leftPayloads`, `rightPayloads` and `depVertical`, which is not set at first. -/
structure Payloads where
  left : List Nat
  right : List Nat
  depVertical : Option Nat
  deriving DecidableEq

/-- The two verticals that are joined. -/
structure JoinedVerticals where
  lexicon : List Vertical
  leftVert : Nat
  rightVert : Nat
  leftVert_lt : leftVert < lexicon.length
  rightVert_lt : rightVert < lexicon.length

namespace JoinedVerticals

variable (J : JoinedVerticals)

/-- `scfg.lexicon[leftVert].columns.size()`. -/
def leftColumns : Nat := (J.lexicon.get ⟨J.leftVert, J.leftVert_lt⟩).columns.length

/-- `scfg.lexicon[rightVert].columns.size()`. -/
def rightColumns : Nat := (J.lexicon.get ⟨J.rightVert, J.rightVert_lt⟩).columns.length

/-- The loop over the independent variables, with the value that it leads to. -/
def pushIndepVars : List ColumnSpec → Payloads → Bool × Payloads
  | [], payloads => (true, payloads)
  | var :: vars, payloads =>
    if var.vertical = J.leftVert then
      if var.column < J.leftColumns then
        pushIndepVars vars { payloads with left := payloads.left ++ [var.column] }
      else (false, payloads)
    else if var.vertical = J.rightVert then
      if var.column < J.rightColumns then
        pushIndepVars vars { payloads with right := payloads.right ++ [var.column] }
      else (false, payloads)
    else (false, payloads)

/-- What follows for the dependent variable. -/
def pushDepVar (var : ColumnSpec) (payloads : Payloads) : Bool × Payloads :=
  if var.vertical = J.leftVert then
    let payloads := { payloads with depVertical := some J.leftVert }
    if var.column < J.leftColumns then
      (true, { payloads with left := payloads.left ++ [var.column] })
    else (false, payloads)
  else if var.vertical = J.rightVert then
    let payloads := { payloads with depVertical := some J.rightVert }
    if var.column < J.rightColumns then
      (true, { payloads with right := payloads.right ++ [var.column] })
    -- The error is logged only.
    else (true, payloads)
  else (false, { payloads with depVertical := some 0 })

/-- `findPayloadRegression`, for lists that are empty at first. -/
def findPayloadRegression (func : LinearRegressionFunction) : Bool × Payloads :=
  match J.pushIndepVars func.indepVars ⟨[], [], none⟩ with
  | (true, payloads) => J.pushDepVar func.depVar payloads
  | (false, payloads) => (false, payloads)

/-! ## What should be found -/

/-- The variable names an existing column of one of the two verticals. -/
def Names (var : ColumnSpec) : Prop :=
  var.vertical = J.leftVert ∧ var.column < J.leftColumns ∨
    var.vertical = J.rightVert ∧ var.column < J.rightColumns

/-- All variables, the dependent one last. -/
def allVars (func : LinearRegressionFunction) : List ColumnSpec :=
  func.indepVars ++ [func.depVar]

/-- The columns of the variables of a vertical. -/
def ownColumns (vertical : Nat) (vars : List ColumnSpec) : List Nat :=
  (vars.filter fun var ↦ var.vertical = vertical).map ColumnSpec.column

/-- The list that a data owner of a vertical takes its payload columns from. -/
def payloadsOf (vertical : Nat) (payloads : Payloads) : List Nat :=
  if vertical = J.leftVert then payloads.left else payloads.right

/-- True is returned exactly for variables that name columns, and then each vertical has the columns
of its variables. -/
structure FindsPayload (func : LinearRegressionFunction) : Prop where
  returns : (J.findPayloadRegression func).1 = true ↔ ∀ var ∈ allVars func, J.Names var
  columns : (J.findPayloadRegression func).1 = true →
    ∀ vertical, vertical = J.leftVert ∨ vertical = J.rightVert →
      J.payloadsOf vertical (J.findPayloadRegression func).2 = ownColumns vertical (allVars func)
  depVertical : (J.findPayloadRegression func).1 = true →
    (J.findPayloadRegression func).2.depVertical = some func.depVar.vertical

variable {J}

/-! ## The loop -/

/-- A vertical that is joined with itself has one number of columns. -/
theorem leftColumns_eq (h : J.leftVert = J.rightVert) : J.leftColumns = J.rightColumns := by
  unfold leftColumns rightColumns
  simp only [h]

theorem names_left_iff {var : ColumnSpec} (h : var.vertical = J.leftVert) :
    J.Names var ↔ var.column < J.leftColumns := by
  constructor
  · rintro (⟨-, hcolumn⟩ | ⟨hright, hcolumn⟩)
    · exact hcolumn
    · rwa [leftColumns_eq (h.symm.trans hright)]
  · exact fun hcolumn ↦ .inl ⟨h, hcolumn⟩

theorem names_right_iff {var : ColumnSpec} (hleft : var.vertical ≠ J.leftVert)
    (h : var.vertical = J.rightVert) : J.Names var ↔ var.column < J.rightColumns := by
  constructor
  · rintro (⟨hleft', -⟩ | ⟨-, hcolumn⟩)
    · exact absurd hleft' hleft
    · exact hcolumn
  · exact fun hcolumn ↦ .inr ⟨h, hcolumn⟩

theorem not_names {var : ColumnSpec} (hleft : var.vertical ≠ J.leftVert)
    (hright : var.vertical ≠ J.rightVert) : ¬J.Names var := by
  simp [Names, hleft, hright]

/-- The columns of the variables outside of the left vertical. -/
private def otherColumns (J : JoinedVerticals) (vars : List ColumnSpec) : List Nat :=
  (vars.filter fun var ↦ var.vertical ≠ J.leftVert).map ColumnSpec.column

theorem pushIndepVars_fst_iff (vars : List ColumnSpec) (payloads : Payloads) :
    (J.pushIndepVars vars payloads).1 = true ↔ ∀ var ∈ vars, J.Names var := by
  induction vars generalizing payloads with
  | nil => simp [pushIndepVars]
  | cons var vars ih =>
    rw [List.forall_mem_cons, pushIndepVars]
    split
    · next hleft =>
      rw [names_left_iff hleft]
      split
      · next hcolumn => simp [ih, hcolumn]
      · next hcolumn => simp [hcolumn]
    · next hleft =>
      split
      · next hright =>
        rw [names_right_iff hleft hright]
        split
        · next hcolumn => simp [ih, hcolumn]
        · next hcolumn => simp [hcolumn]
      · next hright => simp [not_names hleft hright]

theorem pushIndepVars_of_names {vars : List ColumnSpec} (h : ∀ var ∈ vars, J.Names var)
    (payloads : Payloads) : J.pushIndepVars vars payloads = (true,
      { left := payloads.left ++ ownColumns J.leftVert vars
        right := payloads.right ++ J.otherColumns vars
        depVertical := payloads.depVertical }) := by
  induction vars generalizing payloads with
  | nil => simp [pushIndepVars, ownColumns, otherColumns]
  | cons var vars ih =>
    obtain ⟨hvar, hvars⟩ := List.forall_mem_cons.mp h
    rw [pushIndepVars]
    by_cases hleft : var.vertical = J.leftVert
    · rw [if_pos hleft, if_pos ((names_left_iff hleft).mp hvar), ih hvars]
      simp [ownColumns, otherColumns, hleft]
    · by_cases hright : var.vertical = J.rightVert
      · rw [if_neg hleft, if_pos hright, if_pos ((names_right_iff hleft hright).mp hvar), ih hvars]
        simp [ownColumns, otherColumns, hleft]
      · exact absurd hvar (not_names hleft hright)

/-- Outside of the left vertical, a variable that names a column is in the right one. -/
private theorem otherColumns_eq {vars : List ColumnSpec} (h : ∀ var ∈ vars, J.Names var)
    (hne : J.rightVert ≠ J.leftVert) : J.otherColumns vars = ownColumns J.rightVert vars := by
  rw [otherColumns, ownColumns]
  congr 1
  apply List.filter_congr
  intro var hvar
  rcases h var hvar with ⟨hleft, -⟩ | ⟨hright, -⟩
  · simp [hleft, hne.symm]
  · simp [hright, hne]

/-! ## The dependent variable -/

/-- The dependent variable names no column, and is in the right vertical only. -/
def Unrecognized (J : JoinedVerticals) (var : ColumnSpec) : Prop :=
  var.vertical ≠ J.leftVert ∧ var.vertical = J.rightVert ∧ J.rightColumns ≤ var.column

theorem pushDepVar_of_names {var : ColumnSpec} (h : J.Names var) (payloads : Payloads) :
    J.pushDepVar var payloads = (true,
      { left := payloads.left ++ ownColumns J.leftVert [var]
        right := payloads.right ++ J.otherColumns [var]
        depVertical := some var.vertical }) := by
  rw [pushDepVar]
  by_cases hleft : var.vertical = J.leftVert
  · rw [if_pos hleft, if_pos ((names_left_iff hleft).mp h)]
    simp [ownColumns, otherColumns, hleft]
  · by_cases hright : var.vertical = J.rightVert
    · rw [if_neg hleft, if_pos hright, if_pos ((names_right_iff hleft hright).mp h)]
      simp [ownColumns, otherColumns, hleft, ← hright]
    · exact absurd h (not_names hleft hright)

theorem pushDepVar_fst_iff (var : ColumnSpec) (payloads : Payloads) :
    (J.pushDepVar var payloads).1 = true ↔ J.Names var ∨ J.Unrecognized var := by
  rw [pushDepVar, Unrecognized]
  split
  · next hleft =>
    rw [names_left_iff hleft]
    split
    · next hcolumn => simp [hcolumn]
    · next hcolumn => simp [hcolumn, hleft]
  · next hleft =>
    split
    · next hright =>
      rw [names_right_iff hleft hright]
      split
      · next hcolumn => simp [hcolumn]
      · next hcolumn =>
        simp only [hcolumn, false_or, true_iff]
        exact ⟨hleft, hright, Nat.not_lt.mp hcolumn⟩
    · next hright => simp [not_names hleft hright, hright]

theorem findPayloadRegression_fst_iff (func : LinearRegressionFunction) :
    (J.findPayloadRegression func).1 = true ↔
      (∀ var ∈ func.indepVars, J.Names var) ∧
        (J.Names func.depVar ∨ J.Unrecognized func.depVar) := by
  rw [← pushIndepVars_fst_iff func.indepVars ⟨[], [], none⟩, findPayloadRegression]
  split
  · next payloads heq => simp [heq, pushDepVar_fst_iff]
  · next payloads heq => simp [heq]

theorem mem_allVars_iff (func : LinearRegressionFunction) :
    (∀ var ∈ allVars func, J.Names var) ↔
      (∀ var ∈ func.indepVars, J.Names var) ∧ J.Names func.depVar := by
  simp [allVars, or_imp, forall_and]

theorem findPayloadRegression_of_names {func : LinearRegressionFunction}
    (h : ∀ var ∈ allVars func, J.Names var) : (J.findPayloadRegression func).2 =
      { left := ownColumns J.leftVert (allVars func)
        right := J.otherColumns (allVars func)
        depVertical := some func.depVar.vertical } := by
  obtain ⟨hindep, hdep⟩ := (mem_allVars_iff func).mp h
  rw [findPayloadRegression, pushIndepVars_of_names hindep]
  simp only
  rw [pushDepVar_of_names hdep]
  simp [ownColumns, otherColumns, allVars]

/-- The payload is found as it should be, unless the dependent variable alone names no column, in
the right vertical. -/
theorem findsPayload_iff (J : JoinedVerticals) (func : LinearRegressionFunction) :
    J.FindsPayload func ↔
      ¬((∀ var ∈ func.indepVars, J.Names var) ∧ J.Unrecognized func.depVar) := by
  have hexclusive : J.Unrecognized func.depVar → ¬J.Names func.depVar := by
    rintro ⟨hleft, hright, hcolumn⟩
    rw [names_right_iff hleft hright]
    omega
  constructor
  · rintro h ⟨hindep, hdep⟩
    have hfound := (findPayloadRegression_fst_iff func).mpr ⟨hindep, .inr hdep⟩
    exact hexclusive hdep ((mem_allVars_iff func).mp (h.returns.mp hfound)).2
  · intro h
    have hreturns : (J.findPayloadRegression func).1 = true ↔
        ∀ var ∈ allVars func, J.Names var := by
      rw [findPayloadRegression_fst_iff, mem_allVars_iff]
      constructor
      · rintro ⟨hindep, hdep⟩
        exact ⟨hindep, hdep.resolve_right fun hunrecognized ↦ h ⟨hindep, hunrecognized⟩⟩
      · rintro ⟨hindep, hdep⟩
        exact ⟨hindep, .inl hdep⟩
    refine ⟨hreturns, ?_, ?_⟩
    · intro hfound vertical hvertical
      have hnames := hreturns.mp hfound
      rw [findPayloadRegression_of_names hnames, payloadsOf]
      split
      · next hleft => rw [hleft]
      · next hleft =>
        obtain rfl := hvertical.resolve_left hleft
        exact otherColumns_eq hnames hleft
    · intro hfound
      rw [findPayloadRegression_of_names (hreturns.mp hfound)]

/-- Two verticals of two columns each. -/
def twoVerticals : JoinedVerticals where
  lexicon := [⟨0, ["id", "x"]⟩, ⟨1, ["id", "y"]⟩]
  leftVert := 0
  rightVert := 1
  leftVert_lt := by decide
  rightVert_lt := by decide

/-- A dependent variable without a column is found in the right vertical, and left out of the
list. -/
theorem not_findsPayload_right : ¬twoVerticals.FindsPayload ⟨[⟨0, 1⟩], ⟨1, 2⟩⟩ := by
  intro h
  have hnames := h.returns.mp rfl ⟨1, 2⟩ (by decide)
  rcases hnames with ⟨hvertical, -⟩ | ⟨-, hcolumn⟩
  · exact absurd hvertical (by decide)
  · exact absurd hcolumn (by decide)

end JoinedVerticals

end Safrn.Setup
