import Mathlib.Data.List.Forall2
import Safrn.Base.Scatter
import Safrn.Setup.Places
import Safrn.Stats.FixedPoint
import Safrn.Stats.SharedLists

/-!
# Reading the own table

Models `readCSV` (`StartupUtils.cpp:48-188`). `none` stands for a run that does not return: a
conversion of a cell that throws, or one of a number that does not fit its type. A place that is
`SIZE_MAX` is `none` as well.
-/

namespace Safrn.Setup

open Safrn.Base
open Safrn.Stats (Observation convertDoubleToLargeNum)

/-- How numbers are read: `strtod`, with the length of what it reads, and the conversion of a string
to a `LargeNum`. An infinite `double`, or none at all, is `none`. -/
structure NumberReader where
  strtod : Text → Option ℚ × Nat
  largeNum : Text → Option Nat

/-- `atof`. -/
def NumberReader.atof (R : NumberReader) (s : Text) : Option ℚ := (R.strtod s).1

/-- The value of a string of digits. -/
def digitsValue (s : Text) : Nat := s.foldl (fun n c ↦ n * 10 + (c.toNat - '0'.toNat)) 0

/-- The numbers without sign and fraction. -/
def digitsReader : NumberReader where
  strtod s := (some (digitsValue (s.takeWhile Char.isDigit)), (s.takeWhile Char.isDigit).length)
  largeNum s := if s ≠ [] ∧ s.all Char.isDigit then some (digitsValue s) else none

/-- The arguments of `readCSV` except for the file. -/
structure CsvQuery where
  lexicon : List Vertical
  vertical : Nat
  vertical_lt : vertical < lexicon.length
  keyCols : List Nat
  payloadCols : List Nat
  extraPrecisCol : Option Nat
  mod : Nat
  bitsOfPrecision : Nat

/-- What the header line leads to. -/
structure Header where
  headlines : List Text
  keyPlaces : List (Option Nat)
  payloadPlaces : List (Option Nat)
  adjustExtraPrecisCol : Option Nat

namespace CsvQuery

variable (Q : CsvQuery) (R : NumberReader)

/-- `scfg.lexicon[id.vertical]`. -/
def own : Vertical := Q.lexicon.get ⟨Q.vertical, Q.vertical_lt⟩

/-- One round of the loop over the header; there is no header when the column is unknown. The inner
loops do not stop at the first place that is found. -/
def scanColumn (header : Header) (s : Text) : Option Header :=
  (Q.own.columnOf s).map fun i ↦
    { headlines := header.headlines ++ [s]
      keyPlaces := header.keyPlaces ++ [lastIdxOf Q.keyCols i]
      payloadPlaces := header.payloadPlaces ++ [lastIdxOf Q.payloadCols i]
      adjustExtraPrecisCol :=
        if Q.payloadCols ≠ [] ∧ Q.extraPrecisCol = some i then some header.headlines.length
        else header.adjustExtraPrecisCol }

/-- The loop over the header. -/
def scanHeader (splitLine : List Text) : Option Header :=
  splitLine.foldlM Q.scanColumn ⟨[], [], [], none⟩

/-- The number that a payload cell is stored as. -/
def payloadAt (header : Header) (splitLine : List Text) (i : Nat) : Option Nat :=
  let adjustBitsOfPrecis :=
    if header.adjustExtraPrecisCol = some i then Q.bitsOfPrecision * 2 else Q.bitsOfPrecision
  (R.atof (splitLine.getD i [])).bind fun val ↦
    convertDoubleToLargeNum val adjustBitsOfPrecis Q.mod

/-- The number that a key cell is stored as. -/
def keyAt (splitLine : List Text) (i : Nat) : Option Nat := R.largeNum (splitLine.getD i [])

/-- One round of the loop over the cells of a row, for `payloads` and `keys`. -/
def readCell (header : Header) (splitLine : List Text) (row : List Nat × List Nat) (i : Nat) :
    Option (List Nat × List Nat) :=
  (put (fun i ↦ header.payloadPlaces.getD i none) (Q.payloadAt R header splitLine) row.1 i).bind
    fun payloads ↦
      (put (fun i ↦ header.keyPlaces.getD i none) (keyAt R splitLine) row.2 i).map fun keys ↦
        (payloads, keys)

/-- A row that has as many cells as the header. -/
def readRow (header : Header) (splitLine : List Text) : Option Observation :=
  (forRangeM (Q.readCell R header splitLine) splitLine.length
    (List.replicate Q.payloadCols.length 0,
      List.replicate Q.keyCols.length 0 ++ [Q.vertical])).map fun row ↦
    { keyCols := row.2, arithmeticPayloadCols := row.1, xorPayloadCols := [] }

/-- The loop over the lines after the header. -/
def readRows (header : Header) : List Text → List Observation → Option (Bool × List Observation)
  | [], done => some (true, done)
  | line :: lines, done =>
    if isComment (cleaned line) then readRows header lines done
    else
      let cells := split (cleaned line) ',' true
      if cells.length ≠ header.headlines.length then some (false, done)
      else (Q.readRow R header cells).bind fun o ↦ readRows header lines (done ++ [o])

/-- `readCSV` of a file with a text, if it opens: what it returns, and `oList.elements`. -/
def readCSV (file : Option Text) : Option (Bool × List Observation) :=
  match file.map getlines with
  | none => some (false, [])
  | some [] => some (false, [])
  | some (line :: lines) =>
    match Q.scanHeader (split (cleaned line) ',' true) with
    | none => some (false, [])
    | some header => Q.readRows R header lines []

/-! ## What should be read -/

/-- The whole cell is a number. -/
def number (cell : Text) : Option ℚ :=
  if cell ≠ [] ∧ (R.strtod cell).2 = cell.length then (R.strtod cell).1 else none

/-- The fixed-point number of a cell, with the extra precision in its column only. -/
def payloadValue (c : Nat) (cell : Text) : Option Nat :=
  (number R cell).bind fun val ↦ convertDoubleToLargeNum val
    (if Q.extraPrecisCol = some c then Q.bitsOfPrecision * 2 else Q.bitsOfPrecision) Q.mod

/-- A row is read as it should be. -/
structure RowRead (header row : List Text) (o : Observation) : Prop where
  fits : FitsHeader header row
  payloadLength : o.arithmeticPayloadCols.length = Q.payloadCols.length
  payloads : Q.own.ColumnsRead header row Q.payloadCols (Q.payloadValue R) o.arithmeticPayloadCols
  keyLength : o.keyCols.length = Q.keyCols.length + 1
  keys : Q.own.ColumnsRead header row Q.keyCols (fun _ ↦ R.largeNum) o.keyCols
  vertical : o.keyCols[Q.keyCols.length]? = some Q.vertical

/-- The columns that are asked for stand in the header. -/
def Present (header : List Text) : Prop :=
  ∀ c ∈ Q.keyCols ++ Q.payloadCols, ∃ k, Q.own.Names header c k

/-- When true is returned, all columns are there and the rows are read one by one. -/
def ReadsTable (file : Option Text) : Prop :=
  ∀ list, Q.readCSV R file = some (true, list) →
    ∃ header rows, file.bind records = some (header, rows) ∧ Q.Present header ∧
      List.Forall₂ (Q.RowRead R header) rows list

/-! ## The condition -/

/-- The header that a line with known columns leads to. -/
def headerOf (splitLine : List Text) : Header where
  headlines := splitLine
  keyPlaces := splitLine.map fun s ↦ (Q.own.columnOf s).bind (lastIdxOf Q.keyCols)
  payloadPlaces := splitLine.map fun s ↦ (Q.own.columnOf s).bind (lastIdxOf Q.payloadCols)
  adjustExtraPrecisCol :=
    if Q.payloadCols = [] then none
    else lastBelow (fun k ↦ Q.extraPrecisCol.isSome ∧
      splitLine[k]?.bind Q.own.columnOf = Q.extraPrecisCol) splitLine.length

/-- The columns of the header are known, the rows have as many cells, and the cells under the
columns that are asked for are converted. The empty cells are left out. -/
structure Accepted (header : List Text) (rows : List (List Text)) : Prop where
  known : ∀ s ∈ nonempty header, (Q.own.columnOf s).isSome
  length : ∀ row ∈ rows, (nonempty row).length = (nonempty header).length
  payloads : ∀ row ∈ rows, ∀ i c, (nonempty header)[i]?.bind Q.own.columnOf = some c →
    c ∈ Q.payloadCols → (Q.payloadAt R (Q.headerOf (nonempty header)) (nonempty row) i).isSome
  keys : ∀ row ∈ rows, ∀ i c, (nonempty header)[i]?.bind Q.own.columnOf = some c →
    c ∈ Q.keyCols → (keyAt R (nonempty row) i).isSome

/-- The row fits the header, and its numbers are readable. -/
structure RowReadable (header row : List Text) : Prop where
  fits : FitsHeader header row
  payloads : Q.own.Readable header row Q.payloadCols (Q.payloadValue R)
  keys : Q.own.Readable header row Q.keyCols fun _ ↦ R.largeNum

variable {Q R}

/-! ## The header -/

theorem scanHeader_eq (splitLine : List Text) : Q.scanHeader splitLine =
    if ∀ s ∈ splitLine, (Q.own.columnOf s).isSome then some (Q.headerOf splitLine) else none := by
  rw [scanHeader]
  induction splitLine using List.reverseRecOn with
  | nil => simp [headerOf, lastBelow, forRange]
  | append_singleton splitLine s ih =>
    rw [List.foldlM_append, ih]
    by_cases hline : ∀ s ∈ splitLine, (Q.own.columnOf s).isSome
    · rw [if_pos hline]
      cases hs : Q.own.columnOf s with
      | none => simp [scanColumn, hs]
      | some i =>
        have hall : ∀ t ∈ splitLine ++ [s], (Q.own.columnOf t).isSome := by
          intro t ht
          rcases List.mem_append.mp ht with ht | ht
          · exact hline t ht
          · rw [List.mem_singleton.mp ht, hs]
            rfl
        have hbelow : lastBelow (fun k ↦ decide (Q.extraPrecisCol.isSome ∧
              (splitLine ++ [s])[k]?.bind Q.own.columnOf = Q.extraPrecisCol)) splitLine.length =
            lastBelow (fun k ↦ decide (Q.extraPrecisCol.isSome ∧
              splitLine[k]?.bind Q.own.columnOf = Q.extraPrecisCol)) splitLine.length := by
          apply lastBelow_congr
          intro k hk
          rw [List.getElem?_append_left hk]
        have hlast : (Q.extraPrecisCol.isSome ∧
            (splitLine ++ [s])[splitLine.length]?.bind Q.own.columnOf = Q.extraPrecisCol) ↔
              Q.extraPrecisCol = some i := by
          cases Q.extraPrecisCol <;> simp [hs, eq_comm]
        rw [if_pos hall]
        simp only [List.foldlM_cons, List.foldlM_nil, scanColumn, hs, Option.map_some,
          headerOf, List.length_append, List.length_singleton, lastBelow_succ, hbelow, hlast]
        by_cases hempty : Q.payloadCols = [] <;> simp [hempty, hs]
    · rw [if_neg hline, if_neg fun hall ↦ hline fun t ht ↦ hall t (List.mem_append_left _ ht)]
      rfl

/-! ## Rows -/

private theorem getD_places (cols : List Nat) (splitLine : List Text) (i : Nat) :
    (splitLine.map fun s ↦ (Q.own.columnOf s).bind (lastIdxOf cols)).getD i none =
      Q.own.placeOf cols splitLine i := by
  rw [List.getD_eq_getElem?_getD, List.getElem?_map, Vertical.placeOf]
  cases splitLine[i]? <;> rfl

private theorem readRow_eq (splitHeader splitLine : List Text) :
    Q.readRow R (Q.headerOf splitHeader) splitLine =
      (forRangeM (put (Q.own.placeOf Q.payloadCols splitHeader)
        (Q.payloadAt R (Q.headerOf splitHeader) splitLine)) splitLine.length
        (List.replicate Q.payloadCols.length 0)).bind fun payloads ↦
      (forRangeM (put (Q.own.placeOf Q.keyCols splitHeader) (keyAt R splitLine)) splitLine.length
        (List.replicate Q.keyCols.length 0 ++ [Q.vertical])).map fun keys ↦
          { keyCols := keys, arithmeticPayloadCols := payloads, xorPayloadCols := [] } := by
  have hpayloads : (fun i ↦ (Q.headerOf splitHeader).payloadPlaces.getD i none) =
      Q.own.placeOf Q.payloadCols splitHeader := funext fun i ↦ getD_places _ _ i
  have hkeys : (fun i ↦ (Q.headerOf splitHeader).keyPlaces.getD i none) =
      Q.own.placeOf Q.keyCols splitHeader := funext fun i ↦ getD_places _ _ i
  rw [readRow, forRangeM_prod (f := Q.readCell R (Q.headerOf splitHeader) splitLine)
    (g := put (Q.own.placeOf Q.payloadCols splitHeader)
      (Q.payloadAt R (Q.headerOf splitHeader) splitLine))
    (h := put (Q.own.placeOf Q.keyCols splitHeader) (keyAt R splitLine))]
  · cases forRangeM (put (Q.own.placeOf Q.payloadCols splitHeader)
      (Q.payloadAt R (Q.headerOf splitHeader) splitLine)) splitLine.length
      (List.replicate Q.payloadCols.length 0) with
    | none => rfl
    | some payloads => simp [Function.comp_def]
  · intro payloads keys i
    rw [readCell, hpayloads, hkeys]

/-- A row is stored when the cells under the columns that are asked for are converted. -/
theorem readRow_isSome_iff {splitHeader splitLine : List Text}
    (hlength : splitLine.length = splitHeader.length) :
    (Q.readRow R (Q.headerOf splitHeader) splitLine).isSome ↔
      (∀ i c, splitHeader[i]?.bind Q.own.columnOf = some c → c ∈ Q.payloadCols →
        (Q.payloadAt R (Q.headerOf splitHeader) splitLine i).isSome) ∧
      ∀ i c, splitHeader[i]?.bind Q.own.columnOf = some c → c ∈ Q.keyCols →
        (keyAt R splitLine i).isSome := by
  have hplaces : ∀ (cols : List Nat) (valueAt : Nat → Option Nat) (base : List Nat),
      (forRangeM (put (Q.own.placeOf cols splitHeader) valueAt) splitLine.length base).isSome ↔
        ∀ i c, splitHeader[i]?.bind Q.own.columnOf = some c → c ∈ cols → (valueAt i).isSome := by
    intro cols valueAt base
    rw [forRangeM_put_isSome_iff]
    constructor
    · intro h i c hcolumn hc
      obtain ⟨s, hs, -⟩ := Option.bind_eq_some_iff.mp hcolumn
      apply h i
      · rw [hlength]
        exact (List.getElem?_eq_some_iff.mp hs).1
      · exact Vertical.placeOf_isSome_iff.mpr ⟨c, hcolumn, hc⟩
    · intro h i _ hplace
      obtain ⟨c, hcolumn, hc⟩ := Vertical.placeOf_isSome_iff.mp hplace
      exact h i c hcolumn hc
  rw [← hplaces Q.payloadCols _ (List.replicate Q.payloadCols.length 0),
    ← hplaces Q.keyCols _ (List.replicate Q.keyCols.length 0 ++ [Q.vertical]), readRow_eq]
  cases forRangeM (put (Q.own.placeOf Q.payloadCols splitHeader)
    (Q.payloadAt R (Q.headerOf splitHeader) splitLine)) splitLine.length
    (List.replicate Q.payloadCols.length 0) <;> simp

/-- The extra precision is at the last cell under the name of its column. -/
private theorem adjust_iff {splitHeader : List Text} {i j c : Nat}
    (hlocated : Q.own.Located Q.payloadCols j c)
    (hi : lastBelow (fun i ↦ Q.own.placeOf Q.payloadCols splitHeader i = some j)
      splitHeader.length = some i) : (Q.headerOf splitHeader).adjustExtraPrecisCol = some i ↔
        Q.extraPrecisCol = some c := by
  have hc := getElem?_of_lastIdxOf hlocated.2
  have hne : Q.payloadCols ≠ [] := fun hnil ↦ by simp [hnil] at hc
  have hcolumn : ∀ k, Q.own.placeOf Q.payloadCols splitHeader k = some j ↔
      splitHeader[k]?.bind Q.own.columnOf = some c := by
    intro k
    rw [Vertical.placeOf, Option.bind_eq_some_iff]
    constructor
    · rintro ⟨c', hcolumn, hlast⟩
      rw [hcolumn, ← getElem?_of_lastIdxOf hlast, hc]
    · exact fun hcolumn ↦ ⟨c, hcolumn, hlocated.2⟩
  rw [headerOf, if_neg hne]
  constructor
  · intro h
    obtain ⟨-, hextra, -⟩ := lastBelow_eq_some_iff.mp h
    obtain ⟨-, hplace, -⟩ := lastBelow_eq_some_iff.mp hi
    have hplace' := (hcolumn i).mp (of_decide_eq_true hplace)
    rw [← (of_decide_eq_true hextra).2, hplace']
  · intro h
    rw [← hi]
    apply lastBelow_congr
    intro k _
    simp [h, hcolumn]

private theorem strtod_of_number {cell : Text} {val : ℚ} (h : number R cell = some val) :
    (R.strtod cell).1 = some val := by
  rw [number] at h
  split at h
  · exact h
  · contradiction

/-- The keys of a row that is stored. -/
theorem keys_of_readRow {header row : List Text} {o : Observation}
    (hlength : (nonempty row).length = (nonempty header).length)
    (hread : Q.readRow R (Q.headerOf (nonempty header)) (nonempty row) = some o) :
    o.keyCols.length = Q.keyCols.length + 1 ∧ o.keyCols[Q.keyCols.length]? = some Q.vertical ∧
      ((∀ c ∈ Q.keyCols, ∃ k, Q.own.Names header c k) → FitsHeader header row →
        (Q.own.ColumnsRead header row Q.keyCols (fun _ ↦ R.largeNum) o.keyCols ↔
          Q.own.Readable header row Q.keyCols fun _ ↦ R.largeNum)) := by
  rw [readRow_eq, hlength] at hread
  obtain ⟨payloads, -, hread⟩ := Option.bind_eq_some_iff.mp hread
  obtain ⟨keys, hkeys, rfl⟩ := Option.map_eq_some_iff.mp hread
  obtain ⟨hkeyLength, hkeys⟩ := forRangeM_put hkeys
  rw [List.length_append, List.length_replicate, List.length_singleton] at hkeyLength hkeys
  refine ⟨hkeyLength, ?_, ?_⟩
  · have hnone : lastBelow (fun i ↦
        decide (Q.own.placeOf Q.keyCols (nonempty header) i = some Q.keyCols.length))
        (nonempty header).length = none := by
      apply lastBelow_eq_none_iff.mpr
      intro i _
      simpa using Vertical.not_placeOf le_rfl
    rw [hkeys _ (Nat.lt_succ_self _), scattered, hnone]
    simp
  · intro hpresent hfits
    apply Vertical.columnsRead_iff hpresent _ fun j hj ↦ hkeys j (Nat.lt_succ_of_lt hj)
    · intro j c i k v _ _ hk hv
      rwa [keyAt, hfits.getD_nonempty hk]
    · intro j hj
      simp [List.getElem?_append_left, hj]

/-- The payload of a row that is stored. -/
theorem payloads_of_readRow {header row : List Text} {o : Observation}
    (hpresent : ∀ c ∈ Q.payloadCols, ∃ k, Q.own.Names header c k)
    (hlength : (nonempty row).length = (nonempty header).length)
    (hread : Q.readRow R (Q.headerOf (nonempty header)) (nonempty row) = some o) :
    o.arithmeticPayloadCols.length = Q.payloadCols.length ∧
      (FitsHeader header row →
        (Q.own.ColumnsRead header row Q.payloadCols (Q.payloadValue R) o.arithmeticPayloadCols ↔
          Q.own.Readable header row Q.payloadCols (Q.payloadValue R))) := by
  rw [readRow_eq, hlength] at hread
  obtain ⟨payloads, hpayloads, hread⟩ := Option.bind_eq_some_iff.mp hread
  obtain ⟨keys, -, rfl⟩ := Option.map_eq_some_iff.mp hread
  obtain ⟨hpayloadLength, hpayloads⟩ := forRangeM_put hpayloads
  rw [List.length_replicate] at hpayloadLength hpayloads
  refine ⟨hpayloadLength, ?_⟩
  intro hfits
  apply Vertical.columnsRead_iff hpresent _ hpayloads
  · intro j c i k v hlocated hi hk hv
    obtain ⟨val, hval, hv⟩ := Option.bind_eq_some_iff.mp hv
    rw [payloadAt, NumberReader.atof, hfits.getD_nonempty hk, strtod_of_number hval,
      Option.bind_some, ← hv]
    simp only [adjust_iff hlocated hi]
  · intro j hj
    simp [hj]

/-- A row that is stored is read as it should be exactly when it is readable. -/
theorem rowRead_iff {header row : List Text} {o : Observation} (hpresent : Q.Present header)
    (hlength : (nonempty row).length = (nonempty header).length)
    (hread : Q.readRow R (Q.headerOf (nonempty header)) (nonempty row) = some o) :
    Q.RowRead R header row o ↔ Q.RowReadable R header row := by
  obtain ⟨hpayloadLength, hpayloads⟩ :=
    payloads_of_readRow (fun c hc ↦ hpresent c (List.mem_append_right _ hc)) hlength hread
  obtain ⟨hkeyLength, hvertical, hkeys⟩ := keys_of_readRow hlength hread
  replace hkeys := hkeys fun c hc ↦ hpresent c (List.mem_append_left _ hc)
  constructor
  · intro h
    exact ⟨h.fits, (hpayloads h.fits).mp h.payloads, (hkeys h.fits).mp h.keys⟩
  · intro h
    exact ⟨h.fits, hpayloadLength, (hpayloads h.fits).mpr h.payloads, hkeyLength,
      (hkeys h.fits).mpr h.keys, hvertical⟩

/-! ## The loop over the rows -/

/-- The rows that lines hold. -/
def rowsOf (lines : List Text) : List (List Text) :=
  (lines.filter fun line ↦ !isComment (cleaned line)).map cells

theorem readRows_eq_some_iff {header : Header} {lines : List Text} {done list : List Observation} :
    Q.readRows R header lines done = some (true, list) ↔
      ∃ os, list = done ++ os ∧ List.Forall₂ (fun row o ↦
        (nonempty row).length = header.headlines.length ∧
          Q.readRow R header (nonempty row) = some o) (rowsOf lines) os := by
  induction lines generalizing done with
  | nil =>
    simp [readRows, rowsOf, eq_comm]
  | cons line lines ih =>
    rw [readRows]
    split
    · next hcomment =>
      have hrows : rowsOf (line :: lines) = rowsOf lines := by simp [rowsOf, hcomment]
      rw [ih, hrows]
    · next hcomment =>
      have hrows : rowsOf (line :: lines) = cells line :: rowsOf lines := by
        simp [rowsOf, hcomment]
      rw [hrows, split_eq]
      simp only
      split
      · next hlength =>
        constructor
        · simp
        · rintro ⟨os, -, hall⟩
          obtain ⟨o, os', ⟨hlength', -⟩, -, -⟩ := List.forall₂_cons_left_iff.mp hall
          exact absurd hlength' hlength
      · next hlength =>
        rw [Option.bind_eq_some_iff]
        constructor
        · rintro ⟨o, hread, hrest⟩
          obtain ⟨os, rfl, hall⟩ := ih.mp hrest
          refine ⟨o :: os, by simp, List.Forall₂.cons ⟨not_ne_iff.mp hlength, hread⟩ hall⟩
        · rintro ⟨os, rfl, hall⟩
          obtain ⟨o, os', ⟨-, hread⟩, hall', rfl⟩ := List.forall₂_cons_left_iff.mp hall
          exact ⟨o, hread, ih.mpr ⟨os', by simp, hall'⟩⟩

/-- True is returned exactly for a table whose rows are stored one by one. -/
theorem readCSV_eq_some_iff {file : Option Text} {list : List Observation} :
    Q.readCSV R file = some (true, list) ↔
      ∃ header rows, file.bind records = some (header, rows) ∧
        (∀ s ∈ nonempty header, (Q.own.columnOf s).isSome) ∧
        List.Forall₂ (fun row o ↦ (nonempty row).length = (nonempty header).length ∧
          Q.readRow R (Q.headerOf (nonempty header)) (nonempty row) = some o) rows list := by
  cases file with
  | none => simp [readCSV]
  | some text =>
    rw [readCSV, Option.map_some, Option.bind_some, records]
    cases getlines text with
    | nil => simp
    | cons line lines =>
      simp only [split_eq, scanHeader_eq]
      by_cases hknown : ∀ s ∈ nonempty (cells line), (Q.own.columnOf s).isSome
      · rw [if_pos hknown]
        simp only [readRows_eq_some_iff, List.nil_append]
        constructor
        · rintro ⟨os, rfl, hall⟩
          exact ⟨cells line, rowsOf lines, rfl, hknown, hall⟩
        · rintro ⟨header, rows, heq, -, hall⟩
          obtain ⟨rfl, rfl⟩ := Prod.mk.inj (Option.some.inj heq)
          exact ⟨list, rfl, hall⟩
      · rw [if_neg hknown]
        constructor
        · simp
        · rintro ⟨header, rows, heq, hknown', -⟩
          obtain ⟨rfl, -⟩ := Prod.mk.inj (Option.some.inj heq)
          exact absurd hknown' hknown

/-- The rows of an accepted table are stored. -/
private theorem exists_stored {header : List Text} {rows : List (List Text)}
    (h : Q.Accepted R header rows) : ∃ list,
      List.Forall₂ (fun row o ↦ (nonempty row).length = (nonempty header).length ∧
        Q.readRow R (Q.headerOf (nonempty header)) (nonempty row) = some o) rows list := by
  have hrow : ∀ row ∈ rows, ∃ o, (nonempty row).length = (nonempty header).length ∧
      Q.readRow R (Q.headerOf (nonempty header)) (nonempty row) = some o := by
    intro row hrow
    have hlength := h.length row hrow
    have hstored := (readRow_isSome_iff hlength).mpr ⟨h.payloads row hrow, h.keys row hrow⟩
    obtain ⟨o, ho⟩ := Option.isSome_iff_exists.mp hstored
    exact ⟨o, hlength, ho⟩
  clear h
  induction rows with
  | nil => exact ⟨[], .nil⟩
  | cons row rows ih =>
    obtain ⟨o, ho⟩ := hrow row List.mem_cons_self
    obtain ⟨list, hlist⟩ := ih fun row' h ↦ hrow row' (List.mem_cons_of_mem _ h)
    exact ⟨o :: list, .cons ho hlist⟩

/-- Rows that are stored are those of an accepted table. -/
private theorem accepted_of_stored {header : List Text} {rows : List (List Text)}
    {list : List Observation} (hknown : ∀ s ∈ nonempty header, (Q.own.columnOf s).isSome)
    (h : List.Forall₂ (fun row o ↦ (nonempty row).length = (nonempty header).length ∧
      Q.readRow R (Q.headerOf (nonempty header)) (nonempty row) = some o) rows list) :
    Q.Accepted R header rows := by
  have hrow : ∀ row ∈ rows, (nonempty row).length = (nonempty header).length ∧
      (Q.readRow R (Q.headerOf (nonempty header)) (nonempty row)).isSome := by
    intro row hrow
    obtain ⟨i, hi, rfl⟩ := List.mem_iff_getElem.mp hrow
    obtain ⟨hlength, hread⟩ := h.get hi (h.length_eq ▸ hi)
    exact ⟨hlength, Option.isSome_iff_exists.mpr ⟨_, hread⟩⟩
  constructor
  · exact hknown
  · exact fun row h ↦ (hrow row h).1
  · intro row h
    exact ((readRow_isSome_iff (hrow row h).1).mp (hrow row h).2).1
  · intro row h
    exact ((readRow_isSome_iff (hrow row h).1).mp (hrow row h).2).2

/-- The table is read as it should be, unless it is accepted without a column that is asked for or
with a row that is not readable. -/
theorem readsTable_iff (Q : CsvQuery) (R : NumberReader) (file : Option Text) :
    Q.ReadsTable R file ↔ ∀ header rows, file.bind records = some (header, rows) →
      Q.Accepted R header rows →
        Q.Present header ∧ ∀ row ∈ rows, Q.RowReadable R header row := by
  constructor
  · intro h header rows hrecords haccepted
    obtain ⟨list, hlist⟩ := exists_stored haccepted
    obtain ⟨header', rows', hrecords', hpresent, hread⟩ :=
      h list (readCSV_eq_some_iff.mpr ⟨header, rows, hrecords, haccepted.known, hlist⟩)
    obtain ⟨rfl, rfl⟩ := Prod.mk.inj (Option.some.inj (hrecords.symm.trans hrecords'))
    refine ⟨hpresent, ?_⟩
    intro row hrow
    obtain ⟨i, hi, rfl⟩ := List.mem_iff_getElem.mp hrow
    obtain ⟨hlength, hstored⟩ := hlist.get hi (hlist.length_eq ▸ hi)
    exact (rowRead_iff hpresent hlength hstored).mp (hread.get hi (hlist.length_eq ▸ hi))
  · intro h list hlist
    obtain ⟨header, rows, hrecords, hknown, hstored⟩ := readCSV_eq_some_iff.mp hlist
    obtain ⟨hpresent, hreadable⟩ :=
      h header rows hrecords (accepted_of_stored hknown hstored)
    refine ⟨header, rows, hrecords, hpresent, ?_⟩
    apply List.forall₂_iff_get.mpr ⟨hstored.length_eq, ?_⟩
    intro i hi hi'
    obtain ⟨hlength, hrow⟩ := hstored.get hi hi'
    exact (rowRead_iff hpresent hlength hrow).mpr (hreadable _ (List.get_mem _ _))

/-- A vertical with a key column and a payload column. -/
def keyAndPayload : CsvQuery where
  lexicon := [⟨0, ["id", "x"]⟩]
  vertical := 0
  vertical_lt := by decide
  keyCols := [0]
  payloadCols := [1]
  extraPrecisCol := none
  mod := 97
  bitsOfPrecision := 1

example : keyAndPayload.readCSV digitsReader (some "x, id\n2,5\n# end\n3,6\n".toList) =
    some (true, [⟨[5, 0], [4], []⟩, ⟨[6, 0], [6], []⟩]) := by decide +kernel

/-- The rows of a file without the payload column get the payload zero. -/
theorem not_readsTable_missing :
    ¬keyAndPayload.ReadsTable digitsReader (some "id\n7\n".toList) := by
  intro h
  obtain ⟨header, rows, hrecords, hpresent, -⟩ := h [⟨[7, 0], [0], []⟩] (by decide)
  obtain ⟨k, hne, hname⟩ := hpresent 1 (by decide)
  have htable : (some "id\n7\n".toList).bind records = some ([['i', 'd']], [[['7']]]) := by decide
  obtain ⟨rfl, -⟩ := Prod.mk.inj (Option.some.inj (htable.symm.trans hrecords))
  cases k with
  | zero => exact absurd hname (by decide)
  | succ k => exact hne (cellAt_of_length_le (by simp))

end CsvQuery

end Safrn.Setup
