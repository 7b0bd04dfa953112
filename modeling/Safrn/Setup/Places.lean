import Mathlib.Data.List.Basic
import Safrn.Base.Scatter
import Safrn.Setup.Columns
import Safrn.Setup.CsvLines

/-!
# Where the columns of a vertical are stored

The header of a table names columns of the lexicon, and a list of columns says in which order their
cells are stored. `readCSV` goes through the header, takes the first column with the name of each
cell and the last place of that column in the list (`StartupUtils.cpp:103-133`).
-/

namespace Safrn.Setup.Vertical

open Safrn.Base

variable (V : Vertical)

/-- The first column with the name. -/
def columnOf (s : Text) : Option Nat := V.columns.findIdx? fun name ↦ name.toList = s

/-- Where the cell under a header cell is stored. -/
def placeOf (cols : List Nat) (splitLine : List Text) (i : Nat) : Option Nat :=
  (splitLine[i]?.bind V.columnOf).bind (lastIdxOf cols)

/-! ## What should be stored -/

/-- The name of the column stands in the header. -/
def Names (header : List Text) (c k : Nat) : Prop :=
  cellAt header k ≠ [] ∧ V.columns[c]?.map String.toList = some (cellAt header k)

instance (header : List Text) (c k : Nat) : Decidable (V.Names header c k) :=
  inferInstanceAs (Decidable (_ ∧ _))

/-- The values stand for the cells under the names of the columns. -/
def ColumnsRead (header row : List Text) (cols : List Nat) (value : Nat → Text → Option Nat)
    (values : List Nat) : Prop :=
  ∀ j c : Nat, cols[j]? = some c → ∀ k, V.Names header c k →
    ∃ v, value c (cellAt row k) = some v ∧ values[j]? = some v

/-- The column is the first one with its name, and is not asked for again after place `j`. -/
def Located (cols : List Nat) (j c : Nat) : Prop :=
  (V.columns[c]?.bind fun name ↦ V.columnOf name.toList) = some c ∧ lastIdxOf cols c = some j

instance (cols : List Nat) (j c : Nat) : Decidable (V.Located cols j c) :=
  inferInstanceAs (Decidable (_ ∧ _))

/-- In the row, all cells under the name of a column have one value, which is zero when the column
is not located. -/
def Readable (header row : List Text) (cols : List Nat) (value : Nat → Text → Option Nat) : Prop :=
  ∀ j c : Nat, cols[j]? = some c →
    ∃ v, (∀ k, V.Names header c k → value c (cellAt row k) = some v) ∧
      (V.Located cols j c ∨ v = 0)

variable {V}

/-! ## Places -/

theorem columnOf_eq_some {s : Text} {c : Nat} (h : V.columnOf s = some c) :
    V.columns[c]?.map String.toList = some s := by
  obtain ⟨hc, hname, -⟩ := List.findIdx?_eq_some_iff_getElem.mp h
  rw [List.getElem?_eq_getElem hc]
  simpa using hname

theorem Names.lt {header : List Text} {c k : Nat} (h : V.Names header c k) :
    k < header.length := by
  by_contra hk
  exact h.1 (cellAt_of_length_le (Nat.not_lt.mp hk))

/-- A cell is stored at a place when it stands under the name of a column that is located there. -/
theorem placeOf_eq_some_iff {splitLine : List Text} {cols : List Nat} {i j c : Nat}
    (hc : cols[j]? = some c) : V.placeOf cols splitLine i = some j ↔
      V.Located cols j c ∧ splitLine[i]? = V.columns[c]?.map String.toList := by
  rw [placeOf, Located]
  constructor
  · intro h
    obtain ⟨c', hcolumn, hlast⟩ := Option.bind_eq_some_iff.mp h
    obtain ⟨s, hs, hcolumnOf⟩ := Option.bind_eq_some_iff.mp hcolumn
    have hc' := getElem?_of_lastIdxOf hlast
    obtain rfl : c = c' := Option.some.inj (hc.symm.trans hc')
    have hname := columnOf_eq_some hcolumnOf
    refine ⟨⟨?_, hlast⟩, hs.trans hname.symm⟩
    obtain ⟨name, hget, rfl⟩ := Option.map_eq_some_iff.mp hname
    rw [hget, Option.bind_some, hcolumnOf]
  · rintro ⟨⟨hfirst, hlast⟩, hs⟩
    obtain ⟨name, hname, hcolumnOf⟩ := Option.bind_eq_some_iff.mp hfirst
    rw [hs, hname, Option.map_some, Option.bind_some, hcolumnOf, Option.bind_some, hlast]

/-- A column is stored at its place only. -/
theorem not_placeOf {splitLine : List Text} {cols : List Nat} {i j : Nat}
    (hj : cols.length ≤ j) : V.placeOf cols splitLine i ≠ some j := by
  intro h
  obtain ⟨c, -, hlast⟩ := Option.bind_eq_some_iff.mp h
  have hlt := (List.getElem?_eq_some_iff.mp (getElem?_of_lastIdxOf hlast)).1
  omega

/-- No cell is stored for a column that is not located. -/
theorem lastBelow_placeOf_eq_none {splitLine : List Text} {cols : List Nat} {j c : Nat}
    (hc : cols[j]? = some c) (h : ¬V.Located cols j c) (n : Nat) :
    lastBelow (fun i ↦ V.placeOf cols splitLine i = some j) n = none := by
  apply lastBelow_eq_none_iff.mpr
  intro i _
  simpa using fun hplace ↦ h ((placeOf_eq_some_iff hc).mp hplace).1

/-- What is stored for a column that is located stands under its name. -/
theorem exists_lastBelow_placeOf {header : List Text} {cols : List Nat} {j c k : Nat}
    (hc : cols[j]? = some c) (h : V.Located cols j c) (hk : V.Names header c k) :
    ∃ i k', lastBelow (fun i ↦ V.placeOf cols (nonempty header) i = some j)
        (nonempty header).length = some i ∧ (positions header)[i]? = some k' ∧
      V.Names header c k' := by
  have hlength : (nonempty header).length = (positions header).length := by
    rw [nonempty_eq_map, List.length_map]
  obtain ⟨i₀, hi₀⟩ := List.mem_iff_getElem?.mp (mem_positions_iff.mpr hk.1)
  have hplace : V.placeOf cols (nonempty header) i₀ = some j := by
    apply (placeOf_eq_some_iff hc).mpr ⟨h, ?_⟩
    rw [hk.2, nonempty_eq_map, List.getElem?_map, hi₀, Option.map_some]
  obtain ⟨i, hi⟩ : ∃ i, lastBelow (fun i ↦ V.placeOf cols (nonempty header) i = some j)
      (nonempty header).length = some i := by
    apply Option.ne_none_iff_exists'.mp
    intro hnone
    have hlt : i₀ < (nonempty header).length :=
      hlength ▸ (List.getElem?_eq_some_iff.mp hi₀).1
    simpa [hplace] using lastBelow_eq_none_iff.mp hnone i₀ hlt
  obtain ⟨hlt, hplace', -⟩ := lastBelow_eq_some_iff.mp hi
  have hname := ((placeOf_eq_some_iff hc).mp (of_decide_eq_true hplace')).2
  rw [hlength] at hlt
  have hk' := List.getElem?_eq_getElem hlt
  refine ⟨i, _, hi, hk', mem_positions_iff.mp (List.getElem_mem hlt), ?_⟩
  rw [← hname, nonempty_eq_map, List.getElem?_map, hk', Option.map_some]

/-- The values that are stored for a row are read as they should be exactly when it is readable. -/
theorem columnsRead_iff {header row : List Text} {cols values base : List Nat}
    {value : Nat → Text → Option Nat} {valueAt : Nat → Option Nat}
    (hpresent : ∀ c ∈ cols, ∃ k, V.Names header c k)
    (hbase : ∀ j < cols.length, base[j]? = some 0)
    (hvalues : ∀ j < cols.length, values[j]? =
      scattered (V.placeOf cols (nonempty header)) valueAt (nonempty header).length base j)
    (hvalueAt : ∀ j c i k v, V.Located cols j c →
      lastBelow (fun i ↦ V.placeOf cols (nonempty header) i = some j) (nonempty header).length =
        some i →
      (positions header)[i]? = some k → value c (cellAt row k) = some v → valueAt i = some v) :
    V.ColumnsRead header row cols value values ↔ V.Readable header row cols value := by
  have hstored : ∀ j c, cols[j]? = some c → ¬V.Located cols j c → values[j]? = some 0 := by
    intro j c hc hlocated
    have hj := (List.getElem?_eq_some_iff.mp hc).1
    rw [hvalues j hj, scattered, lastBelow_placeOf_eq_none hc hlocated]
    exact hbase j hj
  constructor
  · intro h j c hc
    obtain ⟨k₀, hk₀⟩ := hpresent c (List.mem_of_getElem? hc)
    obtain ⟨v, hv, hvalue⟩ := h j c hc k₀ hk₀
    refine ⟨v, ?_, ?_⟩
    · intro k hk
      obtain ⟨v', hv', hvalue'⟩ := h j c hc k hk
      rw [hv', ← hvalue', hvalue]
    · by_cases hlocated : V.Located cols j c
      · exact .inl hlocated
      · rw [hstored j c hc hlocated] at hvalue
        exact .inr (Option.some.inj hvalue).symm
  · intro h j c hc k hk
    obtain ⟨v, hall, hlocated⟩ := h j c hc
    refine ⟨v, hall k hk, ?_⟩
    by_cases hlocated' : V.Located cols j c
    · obtain ⟨i, k', hi, hk', hnames⟩ := exists_lastBelow_placeOf hc hlocated' hk
      rw [hvalues j (List.getElem?_eq_some_iff.mp hc).1, scattered, hi]
      exact hvalueAt j c i k' v hlocated' hi hk' (hall k' hnames)
    · obtain rfl := hlocated.resolve_left hlocated'
      exact hstored j c hc hlocated'

theorem placeOf_isSome_iff {splitLine : List Text} {cols : List Nat} {i : Nat} :
    (V.placeOf cols splitLine i).isSome ↔
      ∃ c, splitLine[i]?.bind V.columnOf = some c ∧ c ∈ cols := by
  rw [placeOf]
  cases splitLine[i]?.bind V.columnOf <;> simp [lastIdxOf_isSome_iff]

end Safrn.Setup.Vertical
