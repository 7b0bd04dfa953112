import Mathlib.Data.Set.Subsingleton
import Safrn.Util.SampleData

/-!
# When sample data is right

The first vertical numbers the common rows in the order of their identifiers, the others in the
opposite order. So the dependent value of a common row is computed from the first vertical's values
of another one, unless there is only one, or these values are all the same.
-/

namespace Safrn.Util

/-- What the generators of the C++ library may return for a distribution. -/
structure Sampler where
  values : SafrnDistribution → Set ℚ
  nonempty : ∀ dist, (values dist).Nonempty

namespace Sampler

/-- Draws that the generators may return. -/
def Yields (S : Sampler) (cfg : Config) (draws : ℕ → ℕ → RowDraw) : Prop :=
  ∀ k info, cfg.verticals[k]? = some info → ∀ j < info.numRows,
    (0 ≤ (draws k j).unif ∧ (draws k j).unif < 1) ∧ (draws k j).id < maxIdSize ∧
      ∀ c col, info.columnInfo[c]? = some col →
        (draws k j).values c ∈ S.values col.distribution

end Sampler

/-- The configurations whose sample data is right. With two common rows or more in two verticals or
more, the variables of the first vertical that have a coefficient must be constant. -/
structure Config.Aligned (cfg : Config) (S : Sampler) : Prop where
  vertical : cfg.verticals ≠ []
  typed : ∀ info ∈ cfg.verticals, 0 < info.numRows → Typed info.columnInfo
  ids : cfg.idCount ≤ maxIdSize
  features : 0 < cfg.numTotalCommonRows → Config.featureCount cfg.verticals ≤ cfg.numTotalCols
  dependent : 0 < cfg.numTotalCommonRows → cfg.HasDependent → coeffs.length ≤ cfg.numTotalCols
  constant : 1 < cfg.numTotalCommonRows → 1 < cfg.verticals.length → cfg.HasDependent →
    ∀ info ∈ cfg.verticals.head?, ∀ i < coeffs.length, ∀ col ∈ info.columnInfo[i]?,
      (S.values col.distribution).Subsingleton

/-! ### How many identifiers are used -/

namespace VerticalInfo

variable {info : VerticalInfo} {isLast : Bool} {start : ℕ} {draws : ℕ → RowDraw} {s s' : State}
  {files : VerticalFiles}

/-- The number of identifiers that a vertical uses. -/
def idCount (info : VerticalInfo) (s : State) : ℕ :=
  if s.intersectionIds.isEmpty then info.numRows else info.numRows - s.joined.rows

theorem ownCount_eq : (info.vertical isLast start s).ownCount
    ((List.range info.numRows).map draws).length (info.begin s).remainingTotal =
      info.idCount s := by
  rw [List.length_map, List.length_range]
  rfl

theorem Run.card_used (h : info.Run isLast start draws s files s') :
    s'.usedIds.card = s.usedIds.card + info.idCount s := by
  obtain ⟨hused, hnodup, hnew⟩ := Vertical.ids_own h.ready h.rows
  have hlength := Vertical.length_own h.ready h.rows
  rw [ownCount_eq] at hlength
  rw [hused, Finset.card_union_of_disjoint, List.toFinset_card_of_nodup hnodup, List.length_map,
    hlength]
  · rfl
  · rw [Finset.disjoint_right]
    exact fun id hid ↦ hnew id (List.mem_toFinset.mp hid)

theorem Run.lt_maxIdSize (h : info.Run isLast start draws s files s')
    (hzero : ∀ j < info.numRows, (draws j).id = 0) (hs : ∀ id ∈ s.usedIds, id < maxIdSize) :
    ∀ id ∈ s'.usedIds, id < maxIdSize := by
  obtain ⟨hused, -, -⟩ := Vertical.ids_own h.ready h.rows
  have hdraws : ∀ d ∈ (List.range info.numRows).map draws, d.id = 0 := by
    intro d hd
    obtain ⟨j, hj, rfl⟩ := List.mem_map.mp hd
    exact hzero j (List.mem_range.mp hj)
  intro id hid
  rw [hused, Finset.mem_union, List.mem_toFinset] at hid
  exact hid.elim (hs id) (Vertical.own_lt h.ready hdraws h.rows id)

theorem Run.wide (h : info.Run isLast start draws s files s') (hpos : 0 < s.joined.rows) :
    (info.vertical isLast start s).Wide s.joined := by
  have hwide := Vertical.wide_of_rows h.ready (show 0 < (info.begin s).remainingTotal from hpos)
    h.rows
  exact hwide

theorem exists_generate (hle : s.joined.rows ≤ info.numRows)
    (hsum : info.numRowsPerParty.sum = info.numRows) (hunif : info.Decides draws)
    (htyped : 0 < info.numRows → Typed info.columnInfo)
    (hwide : 0 < s.joined.rows → (info.vertical isLast start s).Wide s.joined)
    (hids : s.intersectionIds = [] ∨ s.intersectionIds.length = s.joined.rows)
    (hstart : ∀ j < info.numRows, (draws j).id ≤ maxIdSize)
    (hcard : s.usedIds.card + info.idCount s ≤ maxIdSize) :
    ∃ files s', info.generateDataForVertical isLast start draws s = some (files, s') := by
  have hready := ready_begin hle hunif
  obtain ⟨rows, s', hrows⟩ : ∃ rows s', (info.vertical isLast start s).generateDataForParty
      ((List.range info.numRows).map draws) (info.begin s) = some (rows, s') := by
    refine Vertical.exists_rows hready (fun hne ↦ htyped ?_) hwide (fun hfirst ↦ ?_) ?_ ?_
    · refine Nat.pos_of_ne_zero fun hzero ↦ hne ?_
      rw [hzero]
      rfl
    · rw [vertical] at hfirst
      have hne : s.intersectionIds ≠ [] := by
        intro hnil
        rw [hnil] at hfirst
        cases hfirst
      exact Nat.le_of_eq (hids.resolve_left hne).symm
    · intro d hd
      obtain ⟨j, hj, rfl⟩ := List.mem_map.mp hd
      exact hstart j (List.mem_range.mp hj)
    · rw [ownCount_eq]
      exact hcard
  rw [← hsum] at hrows
  obtain ⟨files, hfiles⟩ : ∃ files, (info.vertical isLast start s).generateParties info.headerLine
      info.numRowsPerParty draws (info.begin s) = some (files, s') :=
    Vertical.exists_generateParties hrows
  refine ⟨files, s', ?_⟩
  rw [generateDataForVertical, if_neg (Nat.not_lt.mpr hle)]
  exact hfiles

end VerticalInfo

namespace Config

variable {draws : ℕ → ℕ → RowDraw} {infos : List VerticalInfo} {k start : ℕ} {s s' : State}
  {files : List VerticalFiles}

/-- The identifiers that later verticals use. -/
def laterCount (infos : List VerticalInfo) (common : ℕ) : ℕ :=
  (infos.map fun info ↦ info.numRows - common).sum

theorem idCount_of_noted {info : VerticalInfo} (hnoted : Noted s) :
    info.idCount s = info.numRows - s.joined.rows := by
  rw [VerticalInfo.idCount, ← hnoted.length]
  cases s.intersectionIds with
  | nil => rfl
  | cons => rfl

theorem card_used_later (hpromised : Promised draws infos k) (hnoted : Noted s)
    (h : generateVerticals draws infos k start s = some (files, s')) :
    s'.usedIds.card = s.usedIds.card + laterCount infos s.joined.rows := by
  refine verticals_induction (P := fun infos _ _ s _ s' ↦ Noted s →
    s'.usedIds.card = s.usedIds.card + laterCount infos s.joined.rows) ?_ ?_ hpromised h hnoted
  · intro info k start s f s' hrun hnoted
    rw [hrun.card_used, idCount_of_noted hnoted]
    rfl
  · intro info infos k start s f s₁ rest s' hrun _ _ ih hnoted
    rw [ih (hnoted.run hrun), hrun.card_used, idCount_of_noted hnoted, hrun.joined_size.1,
      Nat.add_assoc]
    rfl

theorem lt_maxIdSize_of_verticals (hpromised : Promised draws infos k)
    (hzero : ∀ k j, (draws k j).id = 0)
    (h : generateVerticals draws infos k start s = some (files, s'))
    (hs : ∀ id ∈ s.usedIds, id < maxIdSize) : ∀ id ∈ s'.usedIds, id < maxIdSize := by
  refine verticals_induction (P := fun _ _ _ s _ s' ↦ (∀ id ∈ s.usedIds, id < maxIdSize) →
    ∀ id ∈ s'.usedIds, id < maxIdSize) ?_ ?_ hpromised h hs
  · intro info k start s f s' hrun hs
    exact hrun.lt_maxIdSize (fun j _ ↦ hzero k j) hs
  · intro info infos k start s f s₁ rest s' hrun _ _ ih hs
    exact ih (hrun.lt_maxIdSize (fun j _ ↦ hzero k j) hs)

/-- Files tell that the distributions of all columns that are used are set. -/
theorem typed_of_verticals (hpromised : Promised draws infos k)
    (h : generateVerticals draws infos k start s = some (files, s')) :
    ∀ info ∈ infos, 0 < info.numRows → Typed info.columnInfo := by
  have hrun : ∀ {info : VerticalInfo} {isLast : Bool} {start : ℕ} {draws' : ℕ → RowDraw}
      {s s' : State} {f : VerticalFiles}, info.Run isLast start draws' s f s' →
      0 < info.numRows → Typed info.columnInfo := by
    intro info isLast start draws' s s' f hrun hpos
    refine Vertical.typed_of_rows hrun.ready (fun hnil ↦ ?_) hrun.rows
    have hlength := congrArg List.length hnil
    rw [List.length_map, List.length_range] at hlength
    exact Nat.ne_of_gt hpos hlength
  refine verticals_induction (P := fun infos _ _ _ _ _ ↦
    ∀ info ∈ infos, 0 < info.numRows → Typed info.columnInfo) ?_ ?_ hpromised h
  · intro info k start s f s' hr
    exact List.forall_mem_singleton.mpr (hrun hr)
  · intro info infos k start s f s₁ rest s' hr _ _ ih
    exact List.forall_mem_cons.mpr ⟨hrun hr, ih⟩

/-- The joined table has room for what the verticals from `start` on read and write. -/
structure Room (infos : List VerticalInfo) (start cols : ℕ) : Prop where
  features : 0 < featureCount infos → start + featureCount infos ≤ cols
  dependent : (∃ info ∈ infos.getLast?, info.columnInfo ≠ []) → coeffs.length ≤ cols

theorem featureCount_cons {info : VerticalInfo} (hne : infos ≠ []) :
    featureCount (info :: infos) = info.columnInfo.length + featureCount infos := by
  cases infos with
  | nil => exact absurd rfl hne
  | cons => rfl

theorem wide_last {info : VerticalInfo} {T : JoinedTable} :
    (info.vertical true start s).Wide T ↔ Room [info] start T.cols := by
  have hfeatures : (info.vertical true start s).features (info.vertical true start s).columns =
      featureCount [info] := by
    rw [Vertical.features]
    rfl
  constructor
  · rintro ⟨hwide, hdep⟩
    refine ⟨hfeatures ▸ hwide, fun h ↦ hdep ⟨rfl, ?_⟩⟩
    obtain ⟨last, hlast, hne⟩ := h
    obtain rfl := Option.some.inj hlast
    exact hne
  · rintro ⟨hroom, hdep⟩
    exact ⟨hfeatures.symm ▸ hroom, fun h ↦ hdep ⟨info, rfl, h.2⟩⟩

theorem wide_notLast {info : VerticalInfo} {T : JoinedTable} :
    (info.vertical false start s).Wide T ↔
      (0 < info.columnInfo.length → start + info.columnInfo.length ≤ T.cols) := by
  constructor
  · rintro ⟨hwide, -⟩
    exact hwide
  · intro hroom
    exact ⟨hroom, fun h ↦ absurd h.1 Bool.false_ne_true⟩

theorem room_cons {info : VerticalInfo} {cols : ℕ} (hne : infos ≠ []) :
    Room (info :: infos) start cols ↔
      (0 < info.columnInfo.length → start + info.columnInfo.length ≤ cols) ∧
        Room infos (start + info.columnInfo.length) cols := by
  have hcount := @featureCount_cons infos info hne
  have hlast : (info :: infos).getLast? = infos.getLast? := List.getLast?_cons_of_ne_nil hne
  constructor
  · rintro ⟨hfeatures, hdep⟩
    rw [hcount] at hfeatures
    rw [hlast] at hdep
    exact ⟨fun hpos ↦ by omega, fun hpos ↦ by omega, hdep⟩
  · rintro ⟨hfirst, hfeatures, hdep⟩
    refine ⟨fun hpos ↦ ?_, hlast ▸ hdep⟩
    rw [hcount] at hpos ⊢
    by_cases hzero : 0 < featureCount infos
    · have hle := hfeatures hzero
      omega
    · have hle := hfirst (by omega)
      omega

/-- Files with common rows tell that the joined table has room. -/
theorem room_of_verticals (hpromised : Promised draws infos k) (hpos : 0 < s.joined.rows)
    (h : generateVerticals draws infos k start s = some (files, s')) :
    Room infos start s.joined.cols := by
  refine verticals_induction (P := fun infos _ start s _ _ ↦ 0 < s.joined.rows →
    infos ≠ [] ∧ Room infos start s.joined.cols) ?_ ?_ hpromised h hpos |>.2
  · intro info k start s f s' hrun hpos
    exact ⟨List.cons_ne_nil _ _, wide_last.mp (hrun.wide hpos)⟩
  · intro info infos k start s f s₁ rest s' hrun _ _ ih hpos
    obtain ⟨hne, hroom⟩ := ih (hrun.joined_size.1 ▸ hpos)
    rw [hrun.joined_size.2] at hroom
    refine ⟨List.cons_ne_nil _ _, (room_cons hne).mpr ⟨?_, hroom⟩⟩
    exact wide_notLast.mp (hrun.wide hpos)

/-- The searches of the verticals from `k` on start at identifiers. -/
def Starts (draws : ℕ → ℕ → RowDraw) (infos : List VerticalInfo) (k : ℕ) : Prop :=
  ∀ (j : ℕ) (info : VerticalInfo), infos[j]? = some info →
    ∀ i < info.numRows, (draws (k + j) i).id ≤ maxIdSize

theorem Starts.tail {info : VerticalInfo} (h : Starts draws (info :: infos) k) :
    Starts draws infos (k + 1) := by
  intro j next hnext i hi
  rw [Nat.add_assoc, Nat.add_comm 1]
  exact h (j + 1) next hnext i hi

/-- What the verticals need to write their files. -/
structure Writable (draws : ℕ → ℕ → RowDraw) (infos : List VerticalInfo) (k start : ℕ)
    (T : JoinedTable) : Prop where
  promised : Promised draws infos k
  starts : Starts draws infos k
  common : ∀ info ∈ infos, T.rows ≤ info.numRows
  typed : ∀ info ∈ infos, 0 < info.numRows → Typed info.columnInfo
  room : 0 < T.rows → Room infos start T.cols

theorem Writable.tail {info : VerticalInfo} {T T' : JoinedTable} (hne : infos ≠ [])
    (h : Writable draws (info :: infos) k start T) (hrows : T'.rows = T.rows)
    (hcols : T'.cols = T.cols) :
    Writable draws infos (k + 1) (start + info.columnInfo.length) T' := by
  refine ⟨h.promised.tail, h.starts.tail, ?_, fun i hi ↦ h.typed i (List.mem_cons_of_mem _ hi), ?_⟩
  · rw [hrows]
    exact fun i hi ↦ h.common i (List.mem_cons_of_mem _ hi)
  · rw [hrows, hcols]
    exact fun hpos ↦ ((room_cons hne).mp (h.room hpos)).2

theorem Writable.exists_first {info : VerticalInfo}
    (h : Writable draws (info :: infos) k start s.joined)
    (hids : s.intersectionIds = [] ∨ s.intersectionIds.length = s.joined.rows)
    (hcard : s.usedIds.card + info.idCount s ≤ maxIdSize) :
    ∃ f s₁, info.generateDataForVertical (decide (infos = [])) start (draws k) s =
      some (f, s₁) := by
  have hinfo : info ∈ info :: infos := List.mem_cons_self
  refine VerticalInfo.exists_generate (h.common info hinfo) (h.promised.sums info hinfo)
    (h.promised.decides 0 info rfl) (h.typed info hinfo) (fun hpos ↦ ?_) hids
    (h.starts 0 info rfl) hcard
  by_cases hnil : infos = []
  · rw [hnil, decide_eq_true rfl]
    exact wide_last.mpr (hnil ▸ h.room hpos)
  · rw [decide_eq_false hnil]
    exact wide_notLast.mpr ((room_cons hnil).mp (h.room hpos)).1

theorem exists_verticals (hne : infos ≠ []) (h : Writable draws infos k start s.joined)
    (hnoted : Noted s) (hcard : s.usedIds.card + laterCount infos s.joined.rows ≤ maxIdSize) :
    ∃ files s', generateVerticals draws infos k start s = some (files, s') := by
  induction infos generalizing k start s with
  | nil => exact absurd rfl hne
  | cons info infos ih =>
    have hinfo : info ∈ info :: infos := List.mem_cons_self
    have hsplit : laterCount (info :: infos) s.joined.rows =
        info.numRows - s.joined.rows + laterCount infos s.joined.rows := rfl
    have hcount : info.idCount s = info.numRows - s.joined.rows := idCount_of_noted hnoted
    obtain ⟨f, s₁, hf⟩ := h.exists_first (.inr hnoted.length) (by omega)
    have hrun := VerticalInfo.run_of_generate (h.promised.sums info hinfo)
      (h.promised.decides 0 info rfl) hf
    cases infos with
    | nil =>
      refine ⟨[f], s₁, ?_⟩
      rw [generateVerticals]
      rw [decide_eq_true rfl] at hf
      rw [hf]
      rfl
    | cons next infos =>
      have hnil : next :: infos ≠ [] := List.cons_ne_nil _ _
      obtain ⟨rest, s', hrest⟩ := ih hnil (h.tail hnil hrun.joined_size.1 hrun.joined_size.2)
        (hnoted.run hrun) (by rw [hrun.card_used, hrun.joined_size.1]; omega)
      refine ⟨f :: rest, s', ?_⟩
      rw [generateVerticals]
      rw [decide_eq_false hnil] at hf
      rw [hf]
      simp only [Option.bind_eq_bind, Option.bind_some, hrest, Option.pure_def]

theorem exists_main {cfg : Config} {info : VerticalInfo}
    (hverticals : cfg.verticals = info :: infos)
    (h : Writable draws (info :: infos) 0 0 cfg.start.joined)
    (hcard : info.numRows + laterCount infos cfg.numTotalCommonRows ≤ maxIdSize) :
    ∃ files s', cfg.main draws = some (files, s') := by
  have hinfo : info ∈ info :: infos := List.mem_cons_self
  have hempty : cfg.start.usedIds.card = 0 := rfl
  have hcount : info.idCount cfg.start = info.numRows := rfl
  obtain ⟨f, s₁, hf⟩ := h.exists_first (.inl rfl) (by omega)
  have hrun := VerticalInfo.run_of_generate (h.promised.sums info hinfo)
    (h.promised.decides 0 info rfl) hf
  rw [main, hverticals]
  cases infos with
  | nil =>
    refine ⟨[f], s₁, ?_⟩
    rw [generateVerticals]
    rw [decide_eq_true rfl] at hf
    rw [hf]
    rfl
  | cons next infos =>
    have hnil : next :: infos ≠ [] := List.cons_ne_nil _ _
    have hrows : s₁.joined.rows = cfg.numTotalCommonRows := hrun.joined_size.1
    have hused := hrun.card_used
    obtain ⟨rest, s', hrest⟩ := exists_verticals hnil
      (h.tail hnil hrun.joined_size.1 hrun.joined_size.2) (noted_of_first hrun rfl)
      (by rw [hrows]; omega)
    refine ⟨f :: rest, s', ?_⟩
    rw [generateVerticals]
    rw [decide_eq_false hnil] at hf
    rw [hf]
    simp only [Option.bind_eq_bind, Option.bind_some, hrest, Option.pure_def]

theorem idCount_eq {cfg : Config} {info : VerticalInfo}
    (hverticals : cfg.verticals = info :: infos) :
    cfg.idCount = info.numRows + laterCount infos cfg.numTotalCommonRows := by
  rw [idCount, hverticals]
  rfl

/-! ### The values of the first vertical -/

theorem getD_map_append (n : ℕ) (values : ℕ → ℚ) (line : List ℚ) (i : ℕ) :
    ((List.range n).map values ++ line).getD i 0 =
      if i < n then values i else line.getD (i - n) 0 := by
  have hlength : ((List.range n).map values).length = n := by
    rw [List.length_map, List.length_range]
  split
  case isTrue hi =>
    rw [List.getD_append _ _ _ _ (hlength.symm ▸ hi), List.getD_eq_getElem?_getD,
      List.getElem?_map, List.getElem?_range hi]
    rfl
  case isFalse hi =>
    rw [List.getD_append_right _ _ _ _ (hlength.symm ▸ Nat.le_of_not_lt hi), hlength]

section First

variable {info : VerticalInfo} {draws' : ℕ → RowDraw} {f : VerticalFiles} {r : ℕ}

/-- The line of a common row of a vertical that is not the last one is drawn. -/
theorem exists_lineAt (h : info.Run false start draws' s f s') (hr : r < s.joined.rows) :
    ∃ row, (Vertical.common f.rows)[r]? = some row ∧
      lineAt r f = (List.range info.columnInfo.length).map row.draw.values := by
  obtain ⟨row, hrow, hline, -⟩ := h.exists_common hr
  refine ⟨row, hrow, ?_⟩
  rw [lineAt, hrow, Option.elim_some, hline, commonLine_notLast]

theorem exists_draw {isLast : Bool} (h : info.Run isLast start draws' s f s') {row : Row}
    (hrow : row ∈ f.rows) : ∃ j < info.numRows, row.draw = draws' j := by
  have hmem := List.mem_map_of_mem (f := Row.draw) hrow
  rw [Vertical.rows_draws h.ready h.rows] at hmem
  obtain ⟨j, hj, heq⟩ := List.mem_map.mp hmem
  exact ⟨j, List.mem_range.mp hj, heq.symm⟩

/-- When zero is drawn for the first row, it is a common row. -/
theorem exists_first_row {isLast : Bool} (h : info.Run isLast start draws' s f s')
    (hpos : 0 < s.joined.rows) (hzero : (draws' 0).unif = 0) :
    ∃ row rows, f.rows = row :: rows ∧ row.draw = draws' 0 ∧ row.isRowInIntersection = true ∧
      ∀ row' ∈ rows, ∃ j, row'.draw = draws' (j + 1) := by
  have hready := h.ready
  have hrows := h.rows
  obtain ⟨m, hm⟩ : ∃ m, info.numRows = m + 1 := by
    refine Nat.exists_eq_succ_of_ne_zero fun hnone ↦ ?_
    have hle := hready.total
    rw [List.length_map, List.length_range, hnone] at hle
    exact Nat.not_lt.mpr hle hpos
  rw [hm, List.range_succ_eq_map, List.map_cons, List.map_map] at hready hrows
  obtain ⟨⟨row, s₁⟩, hrow, hrows⟩ := Option.bind_eq_some_iff.mp hrows
  obtain ⟨⟨rest, s₂⟩, hrest, hrows⟩ := Option.bind_eq_some_iff.mp hrows
  have hstep := Vertical.step_of_generateRow hrow
  have hdraws := Vertical.rows_draws (hready.tail hstep) hrest
  have hcons : f.rows = row :: rest := (congrArg Prod.fst (Option.some.inj hrows)).symm
  refine ⟨row, rest, hcons, hstep.draw, ?_, fun row' hrow' ↦ ?_⟩
  · rw [hstep.common]
    apply decide_eq_true
    have htotal : (0 : ℚ) < (info.begin s).remainingTotal := Nat.cast_pos.mpr hpos
    have hinVert : (0 : ℚ) < (info.begin s).remainingInVert := by
      have heq : (info.begin s).remainingInVert = m + 1 := hm
      rw [heq]
      exact Nat.cast_pos.mpr (Nat.succ_pos m)
    rw [hzero]
    exact div_pos htotal hinVert
  · have hmem := List.mem_map_of_mem (f := Row.draw) hrow'
    rw [hdraws] at hmem
    obtain ⟨j, -, heq⟩ := List.mem_map.mp hmem
    exact ⟨j, heq.symm⟩

end First

end Config

namespace Sampler

variable {S : Sampler} {cfg : Config}

theorem Yields.promised {draws : ℕ → ℕ → RowDraw} (h : S.Yields cfg draws)
    (hcfg : cfg.Consistent) : Config.Promised draws cfg.verticals 0 := by
  refine ⟨hcfg.sums, fun j info hinfo i hi ↦ ?_⟩
  rw [Nat.zero_add]
  exact (h j info hinfo i hi).1

/-- A value that may be drawn for a column. -/
noncomputable def value (S : Sampler) (cfg : Config) (k c : ℕ) : ℚ :=
  (cfg.verticals[k]?.bind (·.columnInfo[c]?)).elim 0 fun col ↦ (S.nonempty col.distribution).some

/-- Draws that differ in one column of the first vertical, where `a` is drawn once, for the first
row, and `b` for the others. -/
noncomputable def drawsWith (S : Sampler) (cfg : Config) (i : ℕ) (a b : ℚ) (k j : ℕ) : RowDraw :=
  ⟨0, 0, fun c ↦ if k = 0 ∧ c = i then if j = 0 then a else b else S.value cfg k c⟩

theorem yields_drawsWith {i : ℕ} {a b : ℚ}
    (h : ∀ info ∈ cfg.verticals.head?, ∀ col ∈ info.columnInfo[i]?,
      a ∈ S.values col.distribution ∧ b ∈ S.values col.distribution) :
    S.Yields cfg (S.drawsWith cfg i a b) := by
  intro k info hinfo j _
  refine ⟨⟨le_rfl, one_pos⟩, Nat.zero_lt_of_lt (show 1 < maxIdSize by decide), fun c col hcol ↦ ?_⟩
  simp only [drawsWith]
  split
  case isTrue hfirst =>
    obtain ⟨rfl, rfl⟩ := hfirst
    rw [← List.head?_eq_getElem?] at hinfo
    obtain ⟨ha, hb⟩ := h info hinfo col hcol
    split
    · exact ha
    · exact hb
  case isFalse =>
    rw [value, hinfo, Option.bind_some, hcol]
    exact (S.nonempty col.distribution).some_mem

end Sampler

namespace Config

variable {cfg : Config} {S : Sampler} {draws : ℕ → ℕ → RowDraw} {info : VerticalInfo}
  {infos : List VerticalInfo} {f : VerticalFiles} {rest : List VerticalFiles} {s' : State}

theorem coeffs_ne_zero : ∀ c ∈ coeffs, c ≠ 0 := by decide +kernel

/-- Sums that match for all draws force the variables of the first vertical to be constant. -/
theorem eq_of_matched {i : ℕ} {a b : ℚ}
    (hrun : cfg.MainRun (S.drawsWith cfg i a b) info infos f rest s')
    (hne : rest ≠ []) (hmatched : cfg.Matched f rest) (hcommon : 1 < cfg.numTotalCommonRows)
    (hi : i < coeffs.length) (hcol : i < info.columnInfo.length) : a = b := by
  obtain ⟨isLast, s₁, hfirst, hrest⟩ := hrun.exists_first
  obtain ⟨rfl, -, -⟩ := hrest.resolve_left fun h ↦ hne h.1
  have hpos : 0 < cfg.start.joined.rows := Nat.zero_lt_of_lt hcommon
  have hlast : cfg.numTotalCommonRows - 1 - 0 < cfg.start.joined.rows := by
    change _ < cfg.numTotalCommonRows
    omega
  obtain ⟨row₀, rows, hrows, hdraw₀, hin, hothers⟩ := exists_first_row hfirst hpos rfl
  obtain ⟨row, hrow, hline⟩ := exists_lineAt hfirst hpos
  obtain ⟨row', hrow', hline'⟩ := exists_lineAt hfirst hlast
  have hsplit : Vertical.common f.rows = row₀ :: Vertical.common rows := by
    rw [hrows, Vertical.common, List.filter_cons, if_pos hin]
    rfl
  have hdraw : row.draw = S.drawsWith cfg i a b 0 0 := by
    rw [hsplit, List.getElem?_cons_zero] at hrow
    rw [← Option.some.inj hrow, hdraw₀]
  obtain ⟨j, hdraw'⟩ : ∃ j, row'.draw = S.drawsWith cfg i a b 0 (j + 1) := by
    obtain ⟨n, hn⟩ : ∃ n, cfg.numTotalCommonRows - 1 - 0 = n + 1 :=
      ⟨cfg.numTotalCommonRows - 2, by omega⟩
    rw [hn, hsplit, List.getElem?_cons_succ] at hrow'
    exact hothers row' (List.mem_filter.mp (List.mem_of_getElem? hrow')).1
  by_contra hab
  have hsums := hmatched 0 (Nat.zero_lt_of_lt hcommon)
  rw [hline, hline'] at hsums
  refine weighted_ne coeffs_ne_zero hi ?_ (fun c hc ↦ ?_) hsums
  · rw [getD_map_append, getD_map_append, if_pos hcol, if_pos hcol, hdraw, hdraw']
    simpa [Sampler.drawsWith] using hab
  · rw [getD_map_append, getD_map_append, hdraw, hdraw']
    simp [Sampler.drawsWith, hc]

theorem aligned_of_generates (hcfg : cfg.Consistent)
    (h : ∀ draws, S.Yields cfg draws → cfg.Generates draws) : cfg.Aligned S := by
  -- no column is changed in these draws
  let i := (cfg.verticals.head?.elim 0 fun info ↦ info.columnInfo.length)
  have hyields : S.Yields cfg (S.drawsWith cfg i 0 0) := by
    refine Sampler.yields_drawsWith fun info hinfo col hcol ↦ ?_
    have hlength : i = info.columnInfo.length := by
      simp only [i]
      rw [hinfo]
      rfl
    rw [hlength, List.getElem?_eq_none (Nat.le_refl _)] at hcol
    cases hcol
  obtain ⟨files, s', hmain, -⟩ := h _ hyields
  have hpromised := hyields.promised hcfg
  obtain ⟨info, infos, f, rest, hverticals, rfl, hrun⟩ := exists_mainRun hpromised hmain
  have hroom : 0 < cfg.numTotalCommonRows → Room cfg.verticals 0 cfg.numTotalCols :=
    fun hpos ↦ room_of_verticals (s := cfg.start) hpromised hpos hmain
  refine {
    vertical := hverticals ▸ List.cons_ne_nil _ _
    typed := typed_of_verticals hpromised hmain
    ids := ?_
    features := fun hpos ↦ ?_
    dependent := fun hpos ↦ (hroom hpos).dependent
    constant := fun hcommon hlength hdep info' hinfo i hi col hcol a ha b hb ↦ ?_ }
  · have hbelow := lt_maxIdSize_of_verticals hpromised (fun _ _ ↦ rfl) hmain
      fun id hid ↦ absurd hid (Finset.notMem_empty id)
    have hcard : s'.usedIds.card ≤ maxIdSize := by
      rw [← Finset.card_range maxIdSize]
      exact Finset.card_le_card fun id hid ↦ Finset.mem_range.mpr (hbelow id hid)
    obtain ⟨isLast, s₁, hfirst, hrest⟩ := hrun.exists_first
    have hused : s₁.usedIds.card = info.numRows := by
      rw [hfirst.card_used]
      exact Nat.zero_add _
    rw [idCount_eq hverticals, ← hused]
    rw [hverticals] at hpromised
    obtain ⟨rfl, rfl⟩ | ⟨-, -, hrest⟩ := hrest
    · have hnone : infos = [] := by
        have hparties := congrArg List.length (parties_of_generateVerticals
          (hverticals ▸ hpromised) hmain)
        rw [hverticals] at hparties
        simpa using hparties
      rw [hnone]
      exact hcard
    · have hlater := card_used_later hpromised.tail (noted_of_first hfirst rfl) hrest
      rw [hfirst.joined_size.1] at hlater
      exact hlater ▸ hcard
  · cases Nat.eq_zero_or_pos (featureCount cfg.verticals) with
    | inl hzero => exact hzero ▸ Nat.zero_le _
    | inr hfeatures =>
      have hle := (hroom hpos).features hfeatures
      omega
  · have hvaried : S.Yields cfg (S.drawsWith cfg i a b) := by
      refine Sampler.yields_drawsWith fun info'' hinfo'' col' hcol' ↦ ?_
      rw [Option.mem_unique hinfo'' hinfo] at hcol'
      rw [Option.mem_unique hcol' hcol]
      exact ⟨ha, hb⟩
    obtain ⟨files, s₂, hmain₂, hcorrect⟩ := h _ hvaried
    have hpromised₂ := hvaried.promised hcfg
    obtain ⟨info₂, infos₂, f₂, rest₂, hverticals₂, rfl, hrun₂⟩ := exists_mainRun hpromised₂ hmain₂
    have hne : rest₂ ≠ [] := by
      rintro rfl
      have hparties := congrArg List.length (parties_of_generateVerticals hpromised₂ hmain₂)
      rw [List.length_map, List.length_map, List.length_singleton] at hparties
      omega
    have hmatched := (correct_iff_matched (hverticals₂ ▸ hpromised₂) hverticals₂ hmain₂ hrun₂).mp
      hcorrect hne hdep
    have hsame : info' = info₂ := by
      rw [hverticals₂] at hinfo
      exact (Option.some.inj hinfo).symm
    exact eq_of_matched hrun₂ hne hmatched hcommon hi
      (hsame ▸ (List.getElem?_eq_some_iff.mp hcol).1)

/-- Constant variables make the sums match. -/
theorem matched_of_constant (hyields : S.Yields cfg draws) (hcfg : cfg.Aligned S)
    (hverticals : cfg.verticals = info :: infos)
    (hrun : cfg.MainRun draws info infos f rest s') (hne : rest ≠ []) (hinfos : infos ≠ [])
    (hdep : cfg.HasDependent) : cfg.Matched f rest := by
  intro r hr
  obtain ⟨isLast, s₁, hfirst, hrest⟩ := hrun.exists_first
  obtain ⟨rfl, -, -⟩ := hrest.resolve_left fun h ↦ hne h.1
  have hr' : cfg.numTotalCommonRows - 1 - r < cfg.start.joined.rows := by
    change _ < cfg.numTotalCommonRows
    omega
  obtain ⟨row, hrow, hline⟩ := exists_lineAt hfirst (show r < cfg.start.joined.rows from hr)
  obtain ⟨row', hrow', hline'⟩ := exists_lineAt hfirst hr'
  obtain ⟨j, hj, hdraw⟩ := exists_draw hfirst (mem_rows_of_common hrow)
  obtain ⟨j', hj', hdraw'⟩ := exists_draw hfirst (mem_rows_of_common hrow')
  cases Nat.lt_or_ge 1 cfg.numTotalCommonRows with
  | inr hone =>
    have hmirror : cfg.numTotalCommonRows - 1 - r = r := by omega
    rw [hmirror]
  | inl hcommon =>
    have hlength : 1 < cfg.verticals.length := by
      rw [hverticals, List.length_cons]
      exact Nat.succ_lt_succ (List.length_pos_iff.mpr hinfos)
    have hhead : info ∈ cfg.verticals.head? := by
      rw [hverticals]
      rfl
    have hget : cfg.verticals[0]? = some info := by
      rw [hverticals]
      rfl
    refine weighted_congr fun i hi ↦ ?_
    rw [hline, hline', getD_map_append, getD_map_append]
    split
    case isFalse => rfl
    case isTrue hcol =>
      have hmem := List.getElem?_eq_getElem hcol
      rw [hdraw, hdraw']
      exact hcfg.constant hcommon hlength hdep info hhead i hi _ hmem
        ((hyields 0 info hget j hj).2.2 i _ hmem) ((hyields 0 info hget j' hj').2.2 i _ hmem)

theorem generates_of_aligned (hcfg : cfg.Consistent) (haligned : cfg.Aligned S)
    (hyields : S.Yields cfg draws) : cfg.Generates draws := by
  have hpromised := hyields.promised hcfg
  obtain ⟨info, infos, hverticals⟩ := List.exists_cons_of_ne_nil haligned.vertical
  have hids := haligned.ids
  rw [idCount_eq hverticals] at hids
  have hwritable : Writable draws cfg.verticals 0 0 cfg.start.joined := by
    refine ⟨hpromised, fun j next hnext i hi ↦ ?_, hcfg.common, haligned.typed, fun hpos ↦
      ⟨fun _ ↦ ?_, haligned.dependent hpos⟩⟩
    · rw [Nat.zero_add]
      exact Nat.le_of_lt (hyields j next hnext i hi).2.1
    · rw [Nat.zero_add]
      exact haligned.features hpos
  obtain ⟨files, s', hmain⟩ := exists_main hverticals (hverticals ▸ hwritable) hids
  obtain ⟨info', infos', f, rest, hverticals', rfl, hrun⟩ := exists_mainRun hpromised hmain
  refine ⟨f :: rest, s', hmain, ?_⟩
  refine (correct_iff_matched (hverticals' ▸ hpromised) hverticals' hmain hrun).mpr
    fun hne hdep ↦ matched_of_constant hyields haligned hverticals' hrun hne ?_ hdep
  rintro rfl
  have hparties := congrArg List.length (parties_of_generateVerticals hpromised hmain)
  rw [hverticals'] at hparties
  simp only [List.length_map, List.length_cons, List.length_nil, Nat.zero_add,
    Nat.add_eq_right, List.length_eq_zero_iff] at hparties
  exact hne hparties

/-- The sample data is right for all draws exactly when the configuration is aligned. -/
theorem sample_data_iff (S : Sampler) (cfg : Config) (hcfg : cfg.Consistent) :
    (∀ draws, S.Yields cfg draws → cfg.Generates draws) ↔ cfg.Aligned S :=
  ⟨aligned_of_generates hcfg, fun haligned _ hyields ↦ generates_of_aligned hcfg haligned hyields⟩

/-- A uniform distribution of the numbers from zero to one. -/
def unitColumn (name : String) : ColumnInfo := ⟨⟨some .uniform, 1 / 2, 1 / 12, 1⟩, name⟩

/-- Two verticals with two common rows. -/
def twoVerticals : Config :=
  ⟨3, 2, [⟨2, "id", [1, 1], [unitColumn "age", unitColumn "dose"]⟩,
    ⟨3, "id", [3], [unitColumn "weight", unitColumn "risk"]⟩]⟩

/-- The values of a uniform distribution are on both sides of its mean. -/
def aroundMean : Sampler where
  values dist := {x | 2 * dist.mean - dist.max ≤ x ∧ x < dist.max ∨ x = dist.mean}
  nonempty dist := ⟨dist.mean, .inr rfl⟩

theorem consistent_twoVerticals : twoVerticals.Consistent := by
  refine ⟨?_, ?_⟩ <;> simp [twoVerticals]

theorem sample_data_iff_twoVerticals :
    ¬∀ draws, aroundMean.Yields twoVerticals draws → twoVerticals.Generates draws := by
  rw [sample_data_iff aroundMean twoVerticals consistent_twoVerticals]
  intro haligned
  have hdep : twoVerticals.HasDependent := ⟨_, rfl, List.cons_ne_nil _ _⟩
  have hconstant := haligned.constant (by decide) (by decide) hdep _ rfl 0 (by decide) _ rfl
  have hzero : (0 : ℚ) ∈ aroundMean.values (unitColumn "age").distribution :=
    .inl (by norm_num [unitColumn])
  have hhalf : (1 / 2 : ℚ) ∈ aroundMean.values (unitColumn "age").distribution := .inr rfl
  exact absurd (hconstant hzero hhalf) (by norm_num)

end Config

end Safrn.Util
