import Safrn.Setup.Join
import Safrn.Stats.Gram

/-!
# The names of the variables

Models `findColumnNames` (`recipient/RegressionReceiver.cpp:64-101`) and the numbers of variables
that `setupRegressionInfo` computes (`StartupRegression.cpp:84-97`). The names that the recipient
shows are those of the columns that the variables of a matched pair of rows come from, in the order
of the Gram matrix.
-/

namespace Safrn.Setup

open Safrn.Stats (Identity Observation RegressionInfo convertDoubleToLargeNum)

namespace JoinedVerticals

variable (J : JoinedVerticals)

/-- `scfg.lexicon[vert].columns[payload]->name`. -/
def columnName (vert payload : Nat) : Option String :=
  J.lexicon[vert]?.bind fun V ↦ V.columns[payload]?

/-- `findColumnNames`; `none` stands for an index outside of its vector. -/
def findColumnNames (payloads : Payloads) (depVert : Nat) (fitIntercept : Bool) :
    Option (List String) :=
  let firstPayloads := if J.leftVert = depVert then payloads.right else payloads.left
  let secondPayloads := if J.leftVert = depVert then payloads.left else payloads.right
  let firstVert := if J.leftVert = depVert then J.rightVert else J.leftVert
  let secondVert := if J.leftVert = depVert then J.leftVert else J.rightVert
  -- the length of the second loop wraps around when there is no payload
  if secondPayloads = [] then none
  else do
    let first ← firstPayloads.mapM (J.columnName firstVert)
    let second ← (secondPayloads.take (secondPayloads.length - 1)).mapM (J.columnName secondVert)
    return first ++ second ++ if fitIntercept then ["<strong>Intercept</strong>"] else []

/-- The numbers of variables of `setupRegressionInfo`. -/
def setupRegressionInfo (payloads : Payloads) (depVert : Nat) (fitIntercept : Bool)
    (startModulus : Nat) : RegressionInfo :=
  let vertDvLen :=
    (if J.leftVert = depVert then payloads.left.length else payloads.right.length) - 1
  { verticalDvNumIvs := if fitIntercept then vertDvLen + 1 else vertDvLen
    verticalNonDvNumIvs :=
      if J.leftVert = depVert then payloads.right.length else payloads.left.length
    startModulus }

end JoinedVerticals

/-! ## What the names should be -/

/-- The fixed-point number of a cell. -/
def cellValue (R : NumberReader) (mod bitsOfPrecision : Nat) (cell : Text) : Option Nat :=
  (CsvQuery.number R cell).bind fun val ↦ convertDoubleToLargeNum val bitsOfPrecision mod

/-- A number is the one of the cells of a row under a name. -/
def UnderName (value : Text → Option Nat) (header row : List Text) (name : String) (v : Nat) :
    Prop :=
  (∃ k, cellAt header k ≠ [] ∧ cellAt header k = name.toList) ∧
    ∀ k, cellAt header k ≠ [] → cellAt header k = name.toList → value (cellAt row k) = some v

/-- The bits of precision of a column, which are doubled for the dependent variable. -/
def LinearRegressionFunction.precision (func : LinearRegressionFunction)
    (bitsOfPrecision vertical c : Nat) : Nat :=
  if vertical = func.depVar.vertical ∧ c = func.depVar.column then bitsOfPrecision * 2
  else bitsOfPrecision

/-- The columns of the variables are in the header of a data owner, and its rows hold a number under
each. -/
structure PayloadReadable (R : NumberReader) (mod : Nat) (V : Vertical)
    (func : LinearRegressionFunction) (bitsOfPrecision vertical : Nat) (header : List Text)
    (rows : List (List Text)) : Prop where
  present : ∀ c ∈ JoinedVerticals.ownColumns vertical (JoinedVerticals.allVars func),
    ∃ k, V.Names header c k
  fits : ∀ row ∈ rows, FitsHeader header row
  readable : ∀ row ∈ rows,
    V.Readable header row (JoinedVerticals.ownColumns vertical (JoinedVerticals.allVars func))
      fun c ↦ cellValue R mod (func.precision bitsOfPrecision vertical c)

/-- The variables of a pair of rows are shown under the names of the columns that they come from:
`u` is the payload of the row of the other vertical, `v` that of the one with the dependent
variable. -/
structure Shown (value : Nat → Text → Option Nat) (bitsOfPrecision : Nat) (fitIntercept : Bool)
    (names : List String) (depName : String) (info : RegressionInfo) (u v : List Nat)
    (headerU rowU headerV rowV : List Text) : Prop where
  other : ∀ i < info.verticalNonDvNumIvs, ∃ name, names[i]? = some name ∧
    UnderName (value bitsOfPrecision) headerU rowU name (info.independent u v i)
  own : ∀ i, info.verticalNonDvNumIvs ≤ i → i < info.numIvs →
    ¬(fitIntercept = true ∧ i + 1 = info.numIvs) → ∃ name, names[i]? = some name ∧
      UnderName (value bitsOfPrecision) headerV rowV name (info.independent u v i)
  intercept : fitIntercept = true → names[info.numIvs - 1]? = some "<strong>Intercept</strong>" ∧
    info.independent u v (info.numIvs - 1) = 1 <<< bitsOfPrecision
  dependent : UnderName (value (bitsOfPrecision * 2)) headerV rowV depName
    (v.getD info.verticalDvNumIvs 0)

namespace JoinedVerticals

variable {J : JoinedVerticals} {R : NumberReader} {func : LinearRegressionFunction}

/-! ## Names -/

/-- The two verticals in the lexicon. -/
theorem lexicon_getElem? {vertical : Nat}
    (h : vertical = J.leftVert ∨ vertical = J.rightVert) :
    J.lexicon[vertical]? = some (J.vertOf vertical) := by
  have hlt : vertical < J.lexicon.length := by
    rcases h with rfl | rfl
    · exact J.leftVert_lt
    · exact J.rightVert_lt
  rw [← vertOf_eq h hlt]
  exact List.getElem?_eq_getElem hlt

theorem columnName_eq {vertical c : Nat}
    (h : vertical = J.leftVert ∨ vertical = J.rightVert) :
    J.columnName vertical c = (J.vertOf vertical).columns[c]? := by
  rw [columnName, lexicon_getElem? h, Option.bind_some]

/-- A variable that names a column has a name. -/
theorem exists_columnName {var : ColumnSpec} (h : J.Names var) :
    ∃ name, J.columnName var.vertical var.column = some name := by
  rcases h with ⟨hleft, hcolumn⟩ | ⟨hright, hcolumn⟩
  · rw [columnName_eq (.inl hleft), vertOf, if_pos hleft]
    exact ⟨_, List.getElem?_eq_getElem hcolumn⟩
  · have hlexicon := List.getElem?_eq_getElem J.rightVert_lt
    rw [columnName, hright, hlexicon, Option.bind_some]
    exact ⟨_, List.getElem?_eq_getElem hcolumn⟩

theorem exists_columnNames {vars : List ColumnSpec} (h : ∀ var ∈ vars, J.Names var)
    (vertical : Nat) : ∃ names, (ownColumns vertical vars).mapM (J.columnName vertical) =
      some names := by
  induction vars with
  | nil => exact ⟨[], rfl⟩
  | cons var vars ih =>
    obtain ⟨hvar, hvars⟩ := List.forall_mem_cons.mp h
    obtain ⟨names, hnames⟩ := ih hvars
    by_cases hvertical : var.vertical = vertical
    · obtain ⟨name, hname⟩ := exists_columnName hvar
      rw [hvertical] at hname
      refine ⟨name :: names, ?_⟩
      have hcolumns : ownColumns vertical (var :: vars) =
          var.column :: ownColumns vertical vars := by simp [ownColumns, hvertical]
      rw [hcolumns, List.mapM_cons, hname, hnames]
      rfl
    · have hcolumns : ownColumns vertical (var :: vars) = ownColumns vertical vars := by
        simp [ownColumns, hvertical]
      exact ⟨names, by rw [hcolumns, hnames]⟩

/-- The dependent variable is the last one of its vertical. -/
theorem ownColumns_depVar (func : LinearRegressionFunction) :
    ownColumns func.depVar.vertical (allVars func) =
      ownColumns func.depVar.vertical func.indepVars ++ [func.depVar.column] := by
  simp [ownColumns, allVars]

theorem ownColumns_other {vertical : Nat} (h : vertical ≠ func.depVar.vertical) :
    ownColumns vertical (allVars func) = ownColumns vertical func.indepVars := by
  simp [ownColumns, allVars, h.symm]

/-- What is found for variables that name columns. -/
theorem payloads_of_names (hne : J.leftVert ≠ J.rightVert)
    (h : ∀ var ∈ allVars func, J.Names var) : (J.findPayloadRegression func).2 =
      { left := ownColumns J.leftVert (allVars func)
        right := ownColumns J.rightVert (allVars func)
        depVertical := some func.depVar.vertical } := by
  have hdep : J.Names func.depVar := ((mem_allVars_iff func).mp h).2
  have hfinds : J.FindsPayload func := by
    apply (findsPayload_iff J func).mpr
    rintro ⟨-, hleft, hright, hcolumn⟩
    exact absurd ((names_right_iff hleft hright).mp hdep) (Nat.not_lt.mpr hcolumn)
  have hfound := hfinds.returns.mpr h
  have hleft := hfinds.columns hfound J.leftVert (.inl rfl)
  have hright := hfinds.columns hfound J.rightVert (.inr rfl)
  rw [payloadsOf, if_pos rfl] at hleft
  rw [payloadsOf, if_neg hne.symm] at hright
  rw [← hleft, ← hright, ← hfinds.depVertical hfound]

/-- The vertical that is joined with the one of the dependent variable. -/
def otherVert (J : JoinedVerticals) (depVert : Nat) : Nat :=
  if J.leftVert = depVert then J.rightVert else J.leftVert

theorem eq_otherVert {vertical depVert : Nat}
    (h : vertical = J.leftVert ∨ vertical = J.rightVert)
    (hdep : depVert = J.leftVert ∨ depVert = J.rightVert) (hne : vertical ≠ depVert) :
    vertical = J.otherVert depVert := by
  rw [otherVert]
  split
  · next hleft =>
    rcases h with rfl | rfl
    · exact absurd hleft hne
    · rfl
  · next hleft =>
    obtain rfl := hdep.resolve_left (Ne.symm hleft)
    exact h.resolve_right hne

theorem vertical_otherVert (depVert : Nat) :
    J.otherVert depVert = J.leftVert ∨ J.otherVert depVert = J.rightVert := by
  rw [otherVert]
  split
  · exact .inr rfl
  · exact .inl rfl

theorem vertical_of_names {var : ColumnSpec} (h : J.Names var) :
    var.vertical = J.leftVert ∨ var.vertical = J.rightVert := by
  rcases h with ⟨hleft, -⟩ | ⟨hright, -⟩
  · exact .inl hleft
  · exact .inr hright

/-- The names are those of the independent variables, the other vertical first. -/
theorem findColumnNames_eq (hne : J.leftVert ≠ J.rightVert)
    (h : ∀ var ∈ allVars func, J.Names var) (fitIntercept : Bool) :
    ∃ first second,
      J.findColumnNames (J.findPayloadRegression func).2 func.depVar.vertical fitIntercept =
        some (first ++ second ++ if fitIntercept then ["<strong>Intercept</strong>"] else []) ∧
      List.Forall₂ (fun c name ↦
        J.columnName (J.otherVert func.depVar.vertical) c = some name)
        (ownColumns (J.otherVert func.depVar.vertical) func.indepVars) first ∧
      List.Forall₂ (fun c name ↦ J.columnName func.depVar.vertical c = some name)
        (ownColumns func.depVar.vertical func.indepVars) second := by
  obtain ⟨hindep, hdep⟩ := (mem_allVars_iff func).mp h
  obtain ⟨first, hfirst⟩ := exists_columnNames hindep (J.otherVert func.depVar.vertical)
  obtain ⟨second, hsecond⟩ := exists_columnNames hindep func.depVar.vertical
  refine ⟨first, second, ?_, forall₂_of_mapM hfirst, forall₂_of_mapM hsecond⟩
  have htake : (ownColumns func.depVar.vertical (allVars func)).take
      ((ownColumns func.depVar.vertical (allVars func)).length - 1) =
        ownColumns func.depVar.vertical func.indepVars := by
    rw [ownColumns_depVar]
    simp
  have hnonempty : ownColumns func.depVar.vertical (allVars func) ≠ [] := by
    rw [ownColumns_depVar]
    simp
  rw [findColumnNames, payloads_of_names hne h]
  rw [otherVert] at hfirst
  by_cases hleft : J.leftVert = func.depVar.vertical
  · have hother : J.rightVert ≠ func.depVar.vertical := fun hright ↦ hne (hleft.trans hright.symm)
    simp only [if_pos hleft] at hfirst ⊢
    rw [hleft, if_neg hnonempty, ownColumns_other hother, hfirst, htake, hsecond]
    rfl
  · have hright : func.depVar.vertical = J.rightVert :=
      (vertical_of_names hdep).resolve_left (Ne.symm hleft)
    simp only [if_neg hleft] at hfirst ⊢
    rw [← hright, if_neg hnonempty, ownColumns_other hleft, hfirst, htake, hsecond]
    rfl

/-! ## Payloads -/

variable {QueryFilter : Type} {startModulus : Nat} {scfg : StudyConfig} {q : Query QueryFilter}
  {join : JoinStatement} {fitIntercept : Bool} {bitsOfPrecision : Nat} {V : Vertical}
  {header row : List Text}

/-- What a start of a regression that succeeds has done. -/
theorem startup_regression (hjoin : q.joinStatement = some join)
    (hJ : join.joined scfg.lexicon = some J)
    (hfunction : q.function = .linRegression func fitIntercept bitsOfPrecision) {id : Identity}
    {csvFile : Option Text} {list : List Observation}
    (h : startup R startModulus scfg q id csvFile = some (some list)) :
    ∃ keys peers, J.setupRegression R startModulus keys (J.findPayloadRegression func).2
      fitIntercept bitsOfPrecision peers id csvFile = some (some list) := by
  rw [startup, hjoin, Option.bind_some, hJ, Option.bind_some] at h
  split at h
  · simp at h
  · obtain ⟨peers, -, h⟩ := Option.bind_eq_some_iff.mp h
    split at h
    · simp at h
    · simp only [hfunction] at h
      split at h
      · simp at h
      · next payloads hpayloads =>
        have hpair : (J.findPayloadRegression func).2 = payloads := by rw [hpayloads]
        rw [← hpair] at h
        exact ⟨_, peers, h⟩

/-- The payload of a row that is fed: the cells of the columns in order, and the intercept in front
of the dependent variable. -/
def PayloadFed (V : Vertical) (value : Nat → Text → Option Nat) (cols : List Nat)
    (intercept : Option Nat) (header row : List Text) (o : Observation) : Prop :=
  ∃ values, values.length = cols.length ∧ V.ColumnsRead header row cols value values ∧
    o.arithmeticPayloadCols =
      match intercept with
      | none => values
      | some one => values.dropLast ++ one :: values.drop (values.length - 1)

theorem payloadFed_addIntercept {value : Nat → Text → Option Nat} {cols : List Nat}
    {o o' : Observation} (h : PayloadFed V value cols none header row o)
    (ho : addIntercept bitsOfPrecision o = some o') :
    PayloadFed V value cols (some (1 <<< bitsOfPrecision)) header row o' := by
  obtain ⟨values, hlength, hread, hvalues⟩ := h
  obtain ⟨dv, hdv, rfl⟩ := Option.map_eq_some_iff.mp ho
  simp only at hvalues
  rw [hvalues] at hdv
  obtain ⟨front, rfl⟩ := List.getLast?_eq_some_iff.mp hdv
  exact ⟨front ++ [dv], hlength, hread, by simp [hvalues]⟩

/-- All rows of a table that is readable are fed with the payload of its columns. -/
theorem payloadsFed (P : Participation R startModulus scfg q)
    (hjoin : q.joinStatement = some join) (hJ : join.joined scfg.lexicon = some J)
    (hne : J.leftVert ≠ J.rightVert)
    (hfunction : q.function = .linRegression func fitIntercept bitsOfPrecision)
    (hnames : ∀ var ∈ allVars func, J.Names var)
    (hreadable : PayloadReadable R startModulus (J.vertOf P.id.vertical) func bitsOfPrecision
      P.id.vertical P.header P.rows) :
    List.Forall₂ (PayloadFed (J.vertOf P.id.vertical)
        (fun c ↦ cellValue R startModulus (func.precision bitsOfPrecision P.id.vertical c))
        (ownColumns P.id.vertical (allVars func))
        (if fitIntercept ∧ P.id.vertical = func.depVar.vertical then some (1 <<< bitsOfPrecision)
          else none) P.header) P.rows P.list := by
  obtain ⟨-, -, -, hvertical, -⟩ := startup_reads hjoin hJ P.started
  obtain ⟨keys, peers, h⟩ := startup_regression hjoin hJ hfunction P.started
  rw [setupRegression, payloads_of_names hne hnames] at h
  split at h
  · contradiction
  · have hcols : (if J.leftVert = P.id.vertical then ownColumns J.leftVert (allVars func)
        else ownColumns J.rightVert (allVars func)) = ownColumns P.id.vertical (allVars func) := by
      split
      · next hleft => rw [hleft]
      · next hleft => rw [hvertical.resolve_left (Ne.symm hleft)]
    simp only [hcols] at h
    obtain ⟨extraPrecisCol, hextra, h⟩ := Option.bind_eq_some_iff.mp h
    obtain ⟨elements, hread, hlist⟩ := ifRead_eq_some h
    have hfed : List.Forall₂ (PayloadFed (J.vertOf P.id.vertical)
        (fun c ↦ cellValue R startModulus (func.precision bitsOfPrecision P.id.vertical c))
        (ownColumns P.id.vertical (allVars func)) none P.header) P.rows elements := by
      rw [readOwn] at hread
      split at hread
      · next hlt =>
        obtain ⟨header, rows, htable, -, hstored⟩ := CsvQuery.readCSV_eq_some_iff.mp hread
        obtain ⟨rfl, rfl⟩ := Prod.mk.inj (Option.some.inj (P.table.symm.trans htable))
        have hvert := vertOf_eq hvertical hlt
        have hprecision : ∀ c, func.precision bitsOfPrecision P.id.vertical c =
            if extraPrecisCol = some c then bitsOfPrecision * 2 else bitsOfPrecision := by
          intro c
          rw [LinearRegressionFunction.precision]
          split at hextra
          · next hdep =>
            have hown := Option.some.inj hdep
            rw [← hown, ownColumns_depVar, List.getLast?_append_of_ne_nil _ (by simp)] at hextra
            obtain rfl := Option.some.inj hextra
            simp [hown, eq_comm]
          · next hdep =>
            obtain rfl := Option.some.inj hextra
            have hown : P.id.vertical ≠ func.depVar.vertical := fun hown ↦ hdep (by rw [hown])
            simp [hown]
        have hvalue : (fun c ↦ cellValue R startModulus (func.precision bitsOfPrecision
            P.id.vertical c)) = fun c cell ↦ (CsvQuery.number R cell).bind fun val ↦
              convertDoubleToLargeNum val (if extraPrecisCol = some c then bitsOfPrecision * 2
                else bitsOfPrecision) startModulus := by
          funext c cell
          rw [cellValue, hprecision]
        have hcells := hreadable.readable
        rw [hvalue, ← hvert] at hcells ⊢
        rw [← hvert] at hreadable
        apply List.forall₂_iff_get.mpr ⟨hstored.length_eq, ?_⟩
        intro i hi hi'
        obtain ⟨hlength, hrow⟩ := hstored.get hi hi'
        have hmem := List.get_mem P.rows ⟨i, hi⟩
        obtain ⟨hpayloadLength, hcolumns⟩ :=
          CsvQuery.payloads_of_readRow hreadable.present hlength hrow
        exact ⟨_, hpayloadLength,
          (hcolumns (hreadable.fits _ hmem)).mpr (hcells _ hmem), rfl⟩
      · contradiction
    split at hlist
    · next hown =>
      have hintercept := forall₂_of_mapM hlist
      rw [if_pos ⟨hown.1, (Option.some.inj hown.2).symm⟩]
      apply List.forall₂_iff_get.mpr ⟨hfed.length_eq.trans hintercept.length_eq, ?_⟩
      intro i hi hi'
      have hlt : i < elements.length := hfed.length_eq ▸ hi
      exact payloadFed_addIntercept (hfed.get hi hlt) (hintercept.get hlt hi')
    · next hown =>
      obtain rfl := Option.some.inj hlist
      rw [if_neg fun h ↦ hown ⟨h.1, by rw [h.2]⟩]
      exact hfed

/-! ## Variables -/

/-- A number that is read for a column stands under the name of the column. -/
theorem underName_of_columnsRead {value : Nat → Text → Option Nat} {cols values : List Nat}
    {j c : Nat} {name : String} (hread : V.ColumnsRead header row cols value values)
    (hc : cols[j]? = some c) (hpresent : ∃ k, V.Names header c k)
    (hname : V.columns[c]? = some name) :
    ∃ v, values[j]? = some v ∧ UnderName (value c) header row name v := by
  obtain ⟨k, hk⟩ := hpresent
  obtain ⟨v, hv, hvalues⟩ := hread j c hc k hk
  have hcell : cellAt header k = name.toList := by
    have hcolumn := hk.2
    rw [hname] at hcolumn
    exact (Option.some.inj hcolumn).symm
  refine ⟨v, hvalues, ⟨k, hk.1, hcell⟩, ?_⟩
  intro k' hne hcell'
  have hk' : V.Names header c k' := ⟨hne, by rw [hname, Option.map_some, hcell']⟩
  obtain ⟨v', hv', hvalues'⟩ := hread j c hc k' hk'
  rw [hv', ← hvalues', hvalues]

theorem setupRegressionInfo_eq (hne : J.leftVert ≠ J.rightVert)
    (h : ∀ var ∈ allVars func, J.Names var) :
    J.setupRegressionInfo (J.findPayloadRegression func).2 func.depVar.vertical fitIntercept
      startModulus =
        { verticalDvNumIvs :=
            (ownColumns func.depVar.vertical func.indepVars).length + fitIntercept.toNat
          verticalNonDvNumIvs :=
            (ownColumns (J.otherVert func.depVar.vertical) func.indepVars).length
          startModulus } := by
  have hdep := vertical_of_names ((mem_allVars_iff func).mp h).2
  have hlength := congrArg List.length (ownColumns_depVar func)
  rw [List.length_append, List.length_singleton] at hlength
  rw [setupRegressionInfo, payloads_of_names hne h, otherVert]
  by_cases hleft : J.leftVert = func.depVar.vertical
  · have hother : J.rightVert ≠ func.depVar.vertical := fun hright ↦ hne (hleft.trans hright.symm)
    simp only [if_pos hleft, ownColumns_other hother]
    rw [hleft, hlength]
    cases fitIntercept <;> rfl
  · have hright := hdep.resolve_left (Ne.symm hleft)
    simp only [if_neg hleft, ownColumns_other hleft]
    rw [← hright, hlength]
    cases fitIntercept <;> rfl

/-- There is a name for each variable of the Gram matrix. -/
theorem length_columnNames (hne : J.leftVert ≠ J.rightVert)
    (h : ∀ var ∈ allVars func, J.Names var) {first second : List String}
    (hfirst : first.length = (ownColumns (J.otherVert func.depVar.vertical) func.indepVars).length)
    (hsecond : second.length = (ownColumns func.depVar.vertical func.indepVars).length) :
    (first ++ second ++ if fitIntercept then ["<strong>Intercept</strong>"] else []).length =
      (J.setupRegressionInfo (J.findPayloadRegression func).2 func.depVar.vertical fitIntercept
        startModulus).numIvs := by
  rw [setupRegressionInfo_eq hne h]
  simp only [RegressionInfo.numIvs, List.length_append, hfirst, hsecond]
  cases fitIntercept
  · simp [Nat.add_comm]
  · simp
    omega

/-- The payload of a row of the vertical without the dependent variable. -/
theorem PayloadFed.other {value : Nat → Text → Option Nat} {cols : List Nat} {o : Observation}
    (h : PayloadFed V value cols none header row o) : o.arithmeticPayloadCols.length = cols.length ∧
      V.ColumnsRead header row cols value o.arithmeticPayloadCols := by
  obtain ⟨values, hlength, hread, hvalues⟩ := h
  rw [hvalues]
  exact ⟨hlength, hread⟩

/-- The payload of a row of the vertical with the dependent variable, the last of its columns. -/
theorem PayloadFed.own {value : Nat → Text → Option Nat} {cols : List Nat} {c : Nat}
    {intercept : Option Nat} {o : Observation}
    (h : PayloadFed V value (cols ++ [c]) intercept header row o) :
    ∃ front dv, front.length = cols.length ∧
      V.ColumnsRead header row (cols ++ [c]) value (front ++ [dv]) ∧
        o.arithmeticPayloadCols = front ++ intercept.toList ++ [dv] := by
  obtain ⟨values, hlength, hread, hvalues⟩ := h
  rw [List.length_append, List.length_singleton] at hlength
  rcases List.eq_nil_or_concat' values with rfl | ⟨front, dv, rfl⟩
  · simp at hlength
  · rw [List.length_append, List.length_singleton] at hlength
    refine ⟨front, dv, Nat.succ.inj hlength, hread, ?_⟩
    rw [hvalues]
    cases intercept <;> simp

/-- The intercept, if there is one. -/
theorem intercept_toList (fitIntercept : Bool) (one : Nat) :
    (if fitIntercept then some one else none).toList = if fitIntercept then [one] else [] := by
  cases fitIntercept <;> rfl

/-- The payloads of two rows with the names of their columns. -/
theorem shown_of_payloadFed {V₁ V₂ : Vertical} {value value₁ value₂ : Nat → Text → Option Nat}
    {cols₁ cols₂ : List Nat} {c : Nat} {first second : List String} {depName : String}
    {header₁ row₁ header₂ row₂ : List Text} {o₁ o₂ : Observation}
    (hvalue₁ : ∀ c' ∈ cols₁, value₁ c' = value bitsOfPrecision)
    (hvalue₂ : ∀ c' ∈ cols₂, value₂ c' = value bitsOfPrecision)
    (hvalue : value₂ c = value (bitsOfPrecision * 2))
    (hfed₁ : PayloadFed V₁ value₁ cols₁ none header₁ row₁ o₁)
    (hfed₂ : PayloadFed V₂ value₂ (cols₂ ++ [c])
      (if fitIntercept then some (1 <<< bitsOfPrecision) else none) header₂ row₂ o₂)
    (hpresent₁ : ∀ c' ∈ cols₁, ∃ k, V₁.Names header₁ c' k)
    (hpresent₂ : ∀ c' ∈ cols₂ ++ [c], ∃ k, V₂.Names header₂ c' k)
    (hfirst : List.Forall₂ (fun c name ↦ V₁.columns[c]? = some name) cols₁ first)
    (hsecond : List.Forall₂ (fun c name ↦ V₂.columns[c]? = some name) cols₂ second)
    (hdepName : V₂.columns[c]? = some depName) :
    Shown value bitsOfPrecision fitIntercept
      (first ++ second ++ if fitIntercept then ["<strong>Intercept</strong>"] else []) depName
      { verticalDvNumIvs := cols₂.length + fitIntercept.toNat
        verticalNonDvNumIvs := cols₁.length
        startModulus }
      o₁.arithmeticPayloadCols o₂.arithmeticPayloadCols header₁ row₁ header₂ row₂ := by
  obtain ⟨hlength₁, hread₁⟩ := hfed₁.other
  obtain ⟨front, dv, hlength₂, hread₂, hpayload⟩ := hfed₂.own
  rw [hpayload, intercept_toList]
  constructor
  case other =>
    intro i hi
    have hlt : i < cols₁.length := hi
    have hlt' : i < first.length := hfirst.length_eq ▸ hlt
    have hmem := List.getElem_mem hlt
    obtain ⟨v, hv, hunder⟩ := underName_of_columnsRead hread₁ (List.getElem?_eq_getElem hlt)
      (hpresent₁ _ hmem) (hfirst.get hlt hlt')
    refine ⟨first[i], ?_, ?_⟩
    · rw [List.append_assoc, List.getElem?_append_left hlt', List.getElem?_eq_getElem hlt']
    · rw [RegressionInfo.independent, if_pos hi, List.getD_eq_getElem?_getD, hv,
        ← hvalue₁ _ hmem]
      exact hunder
  case own =>
    intro i hle hlt hnot
    obtain ⟨j, rfl⟩ := Nat.exists_eq_add_of_le hle
    simp only [RegressionInfo.numIvs] at hle hlt hnot
    have hj : j < cols₂.length := by
      cases fitIntercept
      · simp at hlt
        omega
      · simp at hlt hnot
        omega
    have hj' : j < second.length := hsecond.length_eq ▸ hj
    have hmem := List.getElem_mem hj
    obtain ⟨v, hv, hunder⟩ := underName_of_columnsRead hread₂
      ((List.getElem?_append_left hj).trans (List.getElem?_eq_getElem hj))
      (hpresent₂ _ (List.mem_append_left _ hmem)) (hsecond.get hj hj')
    refine ⟨second[j], ?_, ?_⟩
    · rw [List.append_assoc, List.getElem?_append_right (by rw [← hfirst.length_eq]; exact hle),
        ← hfirst.length_eq, Nat.add_sub_cancel_left, List.getElem?_append_left hj',
        List.getElem?_eq_getElem hj']
    · rw [List.getElem?_append_left (hlength₂ ▸ hj)] at hv
      rw [RegressionInfo.independent, if_neg (Nat.not_lt.mpr hle), Nat.add_sub_cancel_left,
        List.append_assoc, List.getD_eq_getElem?_getD,
        List.getElem?_append_left (hlength₂ ▸ hj), hv, ← hvalue₂ _ hmem]
      exact hunder
  case intercept =>
    rintro rfl
    have hlast : cols₂.length + 1 + cols₁.length - 1 = cols₁.length + cols₂.length := by omega
    simp only [RegressionInfo.numIvs, Bool.toNat_true, if_true, hlast]
    constructor
    · rw [List.getElem?_append_right (by simp [hfirst.length_eq, hsecond.length_eq])]
      simp [hfirst.length_eq, hsecond.length_eq]
    · rw [RegressionInfo.independent, if_neg (by simp), Nat.add_sub_cancel_left]
      simp [List.getD_eq_getElem?_getD, ← hlength₂]
  case dependent =>
    obtain ⟨v, hv, hunder⟩ := underName_of_columnsRead hread₂ List.getElem?_concat_length
      (hpresent₂ c (List.mem_append_right _ List.mem_cons_self)) hdepName
    rw [← hlength₂, List.getElem?_concat_length] at hv
    obtain rfl := Option.some.inj hv
    have hdv : (front ++ (if fitIntercept then [1 <<< bitsOfPrecision] else []) ++ [dv]).getD
        (cols₂.length + fitIntercept.toNat) 0 = dv := by
      cases fitIntercept <;> simp [List.getD_eq_getElem?_getD, ← hlength₂]
    rw [hdv, ← hvalue]
    exact hunder

end JoinedVerticals

open JoinedVerticals

variable {QueryFilter : Type}

/-- The second columns of both verticals for the third one of the right vertical. -/
def variablesOf : LinearRegressionFunction := ⟨[⟨1, 1⟩, ⟨0, 1⟩], ⟨1, 2⟩⟩

/-- The regression of the third column by the second ones, with an intercept. -/
def regressionOf (join : JoinStatement) : Query Unit where
  prefilters := []
  joinStatement := some join
  function := .linRegression variablesOf true 1

private theorem started_left : startup digitsReader 1009 joinStudy (regressionOf (joinBy [])) ⟨1, 0⟩
    (some "a,b\n1,2\n".toList) = some (some [⟨[1, 0], [4], []⟩]) := by decide +kernel

private theorem table_left : (some "a,b\n1,2\n".toList).bind records =
    some ([['a'], ['b']], [[['1'], ['2']]]) := by decide

/-- The row of the left vertical. -/
def leftRegression : Participation digitsReader 1009 joinStudy (regressionOf (joinBy [])) where
  id := ⟨1, 0⟩
  csvFile := some "a,b\n1,2\n".toList
  list := [⟨[1, 0], [4], []⟩]
  header := [['a'], ['b']]
  rows := [[['1'], ['2']]]
  started := started_left
  table := table_left

private theorem started_right : startup digitsReader 1009 joinStudy (regressionOf (joinBy []))
    ⟨2, 1⟩ (some "a,b,x\n1,3,5\n".toList) = some (some [⟨[1, 1], [6, 2, 20], []⟩]) := by
  decide +kernel

private theorem table_right : (some "a,b,x\n1,3,5\n".toList).bind records =
    some ([['a'], ['b'], ['x']], [[['1'], ['3'], ['5']]]) := by decide

/-- The row of the right vertical. -/
def rightRegression : Participation digitsReader 1009 joinStudy (regressionOf (joinBy [])) where
  id := ⟨2, 1⟩
  csvFile := some "a,b,x\n1,3,5\n".toList
  list := [⟨[1, 1], [6, 2, 20], []⟩]
  header := [['a'], ['b'], ['x']]
  rows := [[['1'], ['3'], ['5']]]
  started := started_right
  table := table_right

/-- The payload of the only row of a table, checked at the cells of its header. -/
private theorem payloadReadable_of_forall {R : NumberReader} {mod : Nat} {V : Vertical}
    {func : LinearRegressionFunction} {bitsOfPrecision vertical : Nat} {header row : List Text}
    (cols : List Nat) (value : Nat → Nat) (hcols : ownColumns vertical (allVars func) = cols)
    (hlength : row.length = header.length)
    (hpresent : ∀ c ∈ cols, ∃ k < header.length, V.Names header c k)
    (hfits : ∀ k < header.length, cellAt row k = [] ↔ cellAt header k = [])
    (hvalues : ∀ c ∈ cols, ∀ k < header.length, V.Names header c k →
      cellValue R mod (func.precision bitsOfPrecision vertical c) (cellAt row k) = some (value c))
    (hlocated : ∀ j < cols.length, ∀ c ∈ cols, cols[j]? = some c → V.Located cols j c) :
    PayloadReadable R mod V func bitsOfPrecision vertical header [row] := by
  subst hcols
  constructor
  · intro c hc
    obtain ⟨k, -, hk⟩ := hpresent c hc
    exact ⟨k, hk⟩
  · intro row' hrow
    rw [List.mem_singleton.mp hrow]
    exact fitsHeader_of_forall hlength hfits
  · intro row' hrow j c hc
    rw [List.mem_singleton.mp hrow]
    have hmem := List.mem_of_getElem? hc
    exact ⟨value c, fun k hk ↦ hvalues c hmem k hk.lt hk,
      .inl (hlocated j (List.getElem?_eq_some_iff.mp hc).1 c hmem hc)⟩

end Safrn.Setup
