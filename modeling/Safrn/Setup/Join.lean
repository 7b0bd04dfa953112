import Safrn.Setup.Startup
import Safrn.Stats.Statistics

/-!
# The join of a query

What a data owner takes from the join statement of a query: the columns of the pairs become the key
columns of its rows, of which `Regression` (`dataowner/Regression.cpp:151`) and `Moments`
(`dataowner/MomentsInfo.h:56-61`) share two. Filters, the join type and the formulas are not read.
-/

namespace Safrn.Setup

open Safrn.Stats (Identity Observation Regression Moments reduceRow)

/-- The keys of a row, as far as the shares of a regression or of the moments determine them. -/
def sharedKeys (keyModulus : Nat) (o : Observation) : List Nat :=
  (o.keyCols.take 2).map (· % keyModulus)

theorem keyCols_reduceRow_regression (r : Regression) (o : Observation) :
    (reduceRow r.listInfo o).keyCols = sharedKeys r.keyModulus o := rfl

theorem keyCols_reduceRow_moments (m : Moments) (o : Observation) :
    (reduceRow m.listInfo o).keyCols = sharedKeys m.keyModulus o := rfl

/-- Without the vertical, which is the last column. -/
def joinKeys (keyModulus : Nat) (o : Observation) : List Nat := (sharedKeys keyModulus o).dropLast

namespace JoinedVerticals

variable (J : JoinedVerticals)

/-- All pairs consist of columns of the two verticals. -/
def Recognized (joinOns : List (JoinOn × JoinOn)) : Prop :=
  ∀ on ∈ joinOns, on.1.col.vertical = J.lvert.verticalIndex ∧
    on.2.col.vertical = J.rvert.verticalIndex ∧ on.1.col.column < J.leftColumns ∧
      on.2.col.column < J.rightColumns

/-- The join columns of the data owners of a vertical. -/
def joinColumns (joinOns : List (JoinOn × JoinOn)) (vertical : Nat) : List Nat :=
  joinOns.map fun on ↦ if vertical = J.leftVert then on.1.col.column else on.2.col.column

/-- The vertical of a data owner. -/
def vertOf (vertical : Nat) : Vertical := if vertical = J.leftVert then J.lvert else J.rvert

variable {J}

theorem pushKeyCols_eq_some_iff {joinOns : List (JoinOn × JoinOn)}
    {keys keys' : List Nat × List Nat} : J.pushKeyCols joinOns keys = some keys' ↔
      J.Recognized joinOns ∧ keys' = (keys.1 ++ joinOns.map fun on ↦ on.1.col.column,
        keys.2 ++ joinOns.map fun on ↦ on.2.col.column) := by
  induction joinOns generalizing keys with
  | nil => simp [pushKeyCols, Recognized, eq_comm]
  | cons on joinOns ih =>
    rw [pushKeyCols, Recognized, List.forall_mem_cons]
    split
    · next h => simp [h]
    · next hleft =>
      split
      · next h => simp [h]
      · next hright =>
        split
        · next h => simp [h]
        · next hleftColumn =>
          split
          · next h => simp [h]
          · next hrightColumn =>
            rw [ih, Recognized]
            simp only [not_not] at hleft hright hleftColumn hrightColumn
            simp [hleft, hright, hleftColumn, hrightColumn]

theorem vertOf_eq {vertical : Nat} (h : vertical = J.leftVert ∨ vertical = J.rightVert)
    (hlt : vertical < J.lexicon.length) : J.lexicon.get ⟨vertical, hlt⟩ = J.vertOf vertical := by
  rw [vertOf]
  split
  · next hleft =>
    subst hleft
    rfl
  · next hleft =>
    obtain rfl := h.resolve_left hleft
    rfl

end JoinedVerticals

/-! ## What a data owner feeds -/

/-- A row with the keys of a row of the table: as far as the keys are readable there, those of the
columns in order, and then the vertical. -/
structure RowFed (R : NumberReader) (V : Vertical) (cols : List Nat) (vertical : Nat)
    (header row : List Text) (o : Observation) : Prop where
  length : o.keyCols.length = cols.length + 1
  keys : (∀ c ∈ cols, ∃ k, V.Names header c k) → FitsHeader header row →
    V.Readable header row cols (fun _ ↦ R.largeNum) →
      V.ColumnsRead header row cols (fun _ ↦ R.largeNum) o.keyCols
  vertical : o.keyCols[cols.length]? = some vertical

/-- A data owner for which `startup` has returned a fronctocol, with its table. -/
structure Participation {QueryFilter : Type} (R : NumberReader) (startModulus : Nat)
    (scfg : StudyConfig) (q : Query QueryFilter) where
  id : Identity
  csvFile : Option Text
  list : List Observation
  header : List Text
  rows : List (List Text)
  started : startup R startModulus scfg q id csvFile = some (some list)
  table : csvFile.bind records = some (header, rows)

section

variable {QueryFilter : Type} {R : NumberReader} {startModulus : Nat} {scfg : StudyConfig}
  {q : Query QueryFilter} {join : JoinStatement} {J : JoinedVerticals}

/-- The columns of the join are in the header, and the rows hold a key under each of them. -/
structure Participation.KeysReadable (P : Participation R startModulus scfg q) (V : Vertical)
    (cols : List Nat) : Prop where
  present : ∀ c ∈ cols, ∃ k, V.Names P.header c k
  fits : ∀ row ∈ P.rows, FitsHeader P.header row
  readable : ∀ row ∈ P.rows, V.Readable P.header row cols fun _ ↦ R.largeNum

/-- The key of a row under the name of a column. -/
def KeyOf (R : NumberReader) (V : Vertical) (header row : List Text) (c v : Nat) : Prop :=
  (∃ k, V.Names header c k) ∧ ∀ k, V.Names header c k → R.largeNum (cellAt row k) = some v

/-- Two rows agree on a pair of columns, up to the modulus of the keys. -/
def AgreeOn (R : NumberReader) (keyModulus : Nat) (J : JoinedVerticals)
    (header₁ row₁ header₂ row₂ : List Text) (on : JoinOn × JoinOn) : Prop :=
  ∃ v₁ v₂, KeyOf R J.lvert header₁ row₁ on.1.col.column v₁ ∧
    KeyOf R J.rvert header₂ row₂ on.2.col.column v₂ ∧ v₁ % keyModulus = v₂ % keyModulus

/-- Rows of data owners of the two verticals have equal keys exactly when they agree on the pairs of
columns, provided that the keys are readable. -/
def JoinsOn (R : NumberReader) (startModulus keyModulus : Nat) (scfg : StudyConfig)
    (q : Query QueryFilter) (join : JoinStatement) (J : JoinedVerticals)
    (pairs : List (JoinOn × JoinOn)) : Prop :=
  ∀ P₁ P₂ : Participation R startModulus scfg q,
    P₁.id.vertical = J.leftVert → P₂.id.vertical = J.rightVert →
    P₁.KeysReadable J.lvert (join.joinOns.map fun on ↦ on.1.col.column) →
    P₂.KeysReadable J.rvert (join.joinOns.map fun on ↦ on.2.col.column) →
    ∀ (i₁ : Nat) row₁ o₁ (i₂ : Nat) row₂ o₂, P₁.rows[i₁]? = some row₁ → P₁.list[i₁]? = some o₁ →
      P₂.rows[i₂]? = some row₂ → P₂.list[i₂]? = some o₂ →
        (joinKeys keyModulus o₁ = joinKeys keyModulus o₂ ↔
          ∀ on ∈ pairs, AgreeOn R keyModulus J P₁.header row₁ P₂.header row₂ on)

/-- A start is refused when a pair has a column that does not exist. -/
theorem startup_of_not_recognized (hjoin : q.joinStatement = some join)
    (hJ : join.joined scfg.lexicon = some J) (h : ¬J.Recognized join.joinOns) (id : Identity)
    (csvFile : Option Text) : startup R startModulus scfg q id csvFile = some none := by
  have hnone : J.pushKeyCols join.joinOns ([], []) = none := by
    apply Option.eq_none_iff_forall_ne_some.mpr
    intro keys hkeys
    exact h (JoinedVerticals.pushKeyCols_eq_some_iff.mp hkeys).1
  rw [startup, hjoin, Option.bind_some, hJ, Option.bind_some, hnone]

/-- All rows of the table are fed, with the keys of the join columns. -/
theorem Participation.rowsFed (P : Participation R startModulus scfg q)
    (hjoin : q.joinStatement = some join) (hJ : join.joined scfg.lexicon = some J) :
    List.Forall₂ (RowFed R (J.vertOf P.id.vertical) (J.joinColumns join.joinOns P.id.vertical)
      P.id.vertical P.header) P.rows P.list := by
  obtain ⟨leftKeys, rightKeys, hpush, hvertical, payloadCols, extraPrecisCol, bitsOfPrecision,
    elements, hread, hkeeps⟩ := startup_reads hjoin hJ P.started
  obtain ⟨-, hkeys⟩ := JoinedVerticals.pushKeyCols_eq_some_iff.mp hpush
  obtain ⟨rfl, rfl⟩ := Prod.mk.inj hkeys
  have hcols : (if P.id.vertical = J.leftVert then [] ++ join.joinOns.map fun on ↦ on.1.col.column
      else [] ++ join.joinOns.map fun on ↦ on.2.col.column) =
        J.joinColumns join.joinOns P.id.vertical := by
    rw [JoinedVerticals.joinColumns]
    split <;> simp_all
  rw [JoinedVerticals.readOwn] at hread
  split at hread
  · next hlt =>
    rw [hcols] at hread
    obtain ⟨header, rows, htable, -, hstored⟩ := CsvQuery.readCSV_eq_some_iff.mp hread
    obtain ⟨rfl, rfl⟩ := Prod.mk.inj (Option.some.inj (P.table.symm.trans htable))
    rw [← JoinedVerticals.vertOf_eq hvertical hlt]
    apply List.forall₂_iff_get.mpr ⟨hstored.length_eq.trans hkeeps.length_eq, ?_⟩
    intro i hi hi'
    have hlt' : i < elements.length := hstored.length_eq ▸ hi
    obtain ⟨hlength, hrow⟩ := hstored.get hi hlt'
    obtain ⟨hkeyLength, htag, hcolumns⟩ := CsvQuery.keys_of_readRow hlength hrow
    have hkeys := hkeeps.get hlt' hi'
    rw [← hkeys] at hkeyLength htag hcolumns
    exact ⟨hkeyLength, fun hpresent hfits ↦ (hcolumns hpresent hfits).mpr, htag⟩
  · contradiction

/-- The key that a row is joined by, when its keys are readable. -/
theorem joinKeys_of_rowFed {V : Vertical} {c : Nat} {cols : List Nat} {vertical : Nat}
    {header row : List Text} {o : Observation} (h : RowFed R V (c :: cols) vertical header row o)
    (hpresent : ∀ c' ∈ c :: cols, ∃ k, V.Names header c' k) (hfits : FitsHeader header row)
    (hreadable : V.Readable header row (c :: cols) fun _ ↦ R.largeNum) (keyModulus : Nat) :
    ∃ v, KeyOf R V header row c v ∧ joinKeys keyModulus o = [v % keyModulus] := by
  have hcolumns := h.keys hpresent hfits hreadable
  obtain ⟨v, hv, -⟩ := hreadable 0 c rfl
  obtain ⟨k, hk⟩ := hpresent c List.mem_cons_self
  obtain ⟨v', hv', hfirst⟩ := hcolumns 0 c rfl k hk
  obtain rfl : v = v' := Option.some.inj ((hv k hk).symm.trans hv')
  refine ⟨v, ⟨⟨k, hk⟩, hv⟩, ?_⟩
  have hlength := h.length
  rw [joinKeys, sharedKeys]
  match hkeys : o.keyCols with
  | [] => simp [hkeys] at hlength
  | [_] => simp [hkeys] at hlength
  | key :: tag :: keys =>
    rw [hkeys] at hfirst
    obtain rfl := Option.some.inj hfirst
    rfl

/-- A row has one key under the name of a column. -/
theorem KeyOf.unique {V : Vertical} {header row : List Text} {c v v' : Nat}
    (h : KeyOf R V header row c v) (h' : KeyOf R V header row c v') : v = v' := by
  obtain ⟨k, hk⟩ := h.1
  exact Option.some.inj ((h.2 k hk).symm.trans (h'.2 k hk))

private theorem rel_of_getElem? {α β : Type} {r : α → β → Prop} {xs : List α} {ys : List β}
    (h : List.Forall₂ r xs ys) {i : Nat} {x : α} {y : β} (hx : xs[i]? = some x)
    (hy : ys[i]? = some y) : r x y := by
  obtain ⟨hi, rfl⟩ := List.getElem?_eq_some_iff.mp hx
  obtain ⟨hi', rfl⟩ := List.getElem?_eq_some_iff.mp hy
  exact h.get hi hi'

/-- The columns of the first and of the second components. -/
theorem joinColumns_left (joinOns : List (JoinOn × JoinOn)) :
    J.joinColumns joinOns J.leftVert = joinOns.map fun on ↦ on.1.col.column := by
  simp [JoinedVerticals.joinColumns]

theorem joinColumns_right (hne : J.leftVert ≠ J.rightVert) (joinOns : List (JoinOn × JoinOn)) :
    J.joinColumns joinOns J.rightVert = joinOns.map fun on ↦ on.2.col.column := by
  simp [JoinedVerticals.joinColumns, hne.symm]

/-- Rows of the two verticals have equal keys exactly when they agree on the first pair. -/
theorem joinsOn_first (hjoin : q.joinStatement = some join) (hJ : join.joined scfg.lexicon = some J)
    (hne : J.leftVert ≠ J.rightVert) (keyModulus : Nat) :
    JoinsOn R startModulus keyModulus scfg q join J (join.joinOns.take 1) := by
  intro P₁ P₂ hleft hright hkeys₁ hkeys₂ i₁ row₁ o₁ i₂ row₂ o₂ hrow₁ ho₁ hrow₂ ho₂
  have hfed₁ := rel_of_getElem? (P₁.rowsFed hjoin hJ) hrow₁ ho₁
  have hfed₂ := rel_of_getElem? (P₂.rowsFed hjoin hJ) hrow₂ ho₂
  rw [hleft, joinColumns_left, JoinedVerticals.vertOf, if_pos rfl] at hfed₁
  rw [hright, joinColumns_right hne, JoinedVerticals.vertOf, if_neg hne.symm] at hfed₂
  obtain ⟨on, joinOns, hons⟩ := List.exists_cons_of_ne_nil join.joinOns_ne_nil
  have hreadable₁ := hkeys₁.readable row₁ (List.mem_of_getElem? hrow₁)
  have hreadable₂ := hkeys₂.readable row₂ (List.mem_of_getElem? hrow₂)
  have hpresent₁ := hkeys₁.present
  have hpresent₂ := hkeys₂.present
  rw [hons, List.map_cons] at hfed₁ hfed₂ hreadable₁ hreadable₂ hpresent₁ hpresent₂
  obtain ⟨v₁, hkey₁, heq₁⟩ := joinKeys_of_rowFed hfed₁ hpresent₁
    (hkeys₁.fits row₁ (List.mem_of_getElem? hrow₁)) hreadable₁ keyModulus
  obtain ⟨v₂, hkey₂, heq₂⟩ := joinKeys_of_rowFed hfed₂ hpresent₂
    (hkeys₂.fits row₂ (List.mem_of_getElem? hrow₂)) hreadable₂ keyModulus
  rw [heq₁, heq₂, hons]
  constructor
  · intro h on' hon'
    obtain rfl := List.mem_singleton.mp hon'
    exact ⟨v₁, v₂, hkey₁, hkey₂, List.head_eq_of_cons_eq h⟩
  · intro h
    obtain ⟨v₁', v₂', hkey₁', hkey₂', hmod⟩ := h on List.mem_cons_self
    rw [hkey₁.unique hkey₁', hkey₂.unique hkey₂', hmod]

end

/-! ## Two pairs of columns -/

/-- Two verticals with two columns for a join, and a data owner of each. -/
def joinStudy : StudyConfig where
  lexicon := [⟨0, ["a", "b"]⟩, ⟨1, ["a", "b", "x"]⟩]
  peers := [⟨1, false, false, true, 0⟩, ⟨2, false, false, true, 1⟩, ⟨3, false, true, false, 0⟩]

/-- The verticals of the study. -/
def joinVerticals : JoinedVerticals where
  lexicon := joinStudy.lexicon
  leftVert := 0
  rightVert := 1
  leftVert_lt := by decide
  rightVert_lt := by decide

/-- A pair of columns of the same number, without a formula. -/
def joinPair (column : Nat) : JoinOn × JoinOn := (⟨⟨0, column⟩, [0, 1]⟩, ⟨⟨1, column⟩, [0, 1]⟩)

/-- The join by the first column, and by further ones. -/
def joinBy (columns : List Nat) : JoinStatement where
  type := .inner
  joinOns := joinPair 0 :: columns.map joinPair
  joinOns_ne_nil := List.cons_ne_nil _ _

/-- The mean of the third column. -/
def meanOf (join : JoinStatement) : Query Unit where
  prefilters := []
  joinStatement := some join
  function := .moment ⟨⟨1, 2⟩, 1, 1⟩

/-- The row of the left vertical. -/
def leftParticipation : Participation digitsReader 1009 joinStudy (meanOf (joinBy [1])) where
  id := ⟨1, 0⟩
  csvFile := some "a,b\n1,2\n".toList
  list := [⟨[1, 2, 0], [0, 0], []⟩]
  header := [['a'], ['b']]
  rows := [[['1'], ['2']]]
  started := by decide +kernel
  table := by decide

/-- The row of the right vertical. -/
def rightParticipation : Participation digitsReader 1009 joinStudy (meanOf (joinBy [1])) where
  id := ⟨2, 1⟩
  csvFile := some "a,b,x\n1,3,5\n".toList
  list := [⟨[1, 3, 1], [1, 10], []⟩]
  header := [['a'], ['b'], ['x']]
  rows := [[['1'], ['3'], ['5']]]
  started := by decide +kernel
  table := by decide

/-- The keys of the only row of a table, checked at the cells of its header. -/
private theorem keysReadable_of_forall {QueryFilter : Type} {R : NumberReader} {startModulus : Nat}
    {scfg : StudyConfig} {q : Query QueryFilter} {P : Participation R startModulus scfg q}
    {V : Vertical} {row : List Text} {cols : List Nat} (value : Nat → Nat)
    (hrows : P.rows = [row]) (hlength : row.length = P.header.length)
    (hpresent : ∀ c ∈ cols, ∃ k < P.header.length, V.Names P.header c k)
    (hfits : ∀ k < P.header.length, cellAt row k = [] ↔ cellAt P.header k = [])
    (hkeys : ∀ c ∈ cols, ∀ k < P.header.length, V.Names P.header c k →
      R.largeNum (cellAt row k) = some (value c))
    (hlocated : ∀ j < cols.length, ∀ c ∈ cols, cols[j]? = some c → V.Located cols j c) :
    P.KeysReadable V cols := by
  constructor
  · intro c hc
    obtain ⟨k, -, hk⟩ := hpresent c hc
    exact ⟨k, hk⟩
  · rw [hrows]
    intro row' hrow
    rw [List.mem_singleton.mp hrow]
    exact fitsHeader_of_forall hlength hfits
  · rw [hrows]
    intro row' hrow j c hc
    rw [List.mem_singleton.mp hrow]
    have hmem := List.mem_of_getElem? hc
    exact ⟨value c, fun k hk ↦ hkeys c hmem k hk.lt hk,
      .inl (hlocated j (List.getElem?_eq_some_iff.mp hc).1 c hmem hc)⟩

end Safrn.Setup
