import Safrn.Base.CrossJoin
import Safrn.Cuckoo.ResultSet

/-!
# The groups of a query's result

Models `QueryBuilder.java:585-659`, `BackServerRawHandler.java:2090-2097,3559-3577` and what the
databases make of the query. The result has for each output row a `NULL`, which the second `SELECT`
adds, and the identifiers of the group; the handler skips one row and takes what follows, up to
the next `NULL`, as one group after the other. Where the database sorts `NULL` last, the row that
is skipped is not a `NULL`.
-/

namespace Safrn.Cuckoo

open Safrn.Base Safrn.Java HashParams CuckooTable

/-! ### Databases -/

/-- The supported database systems. -/
inductive JdbcSubprotocol
  | MYSQL
  | ORACLE
  | POSTGRESQL
  deriving DecidableEq

/-- Where `NULL` comes in an ascending order. -/
inductive NullOrder
  | FIRST
  | LAST
  deriving DecidableEq

/-- The order of the database where a query does not ask for one. -/
def JdbcSubprotocol.nullOrder : JdbcSubprotocol → NullOrder
  | .MYSQL => .FIRST
  | .ORACLE => .LAST
  | .POSTGRESQL => .LAST

/-- A row of the data table; a column may be `NULL`. -/
structure TableRow where
  CaseID : Option (BitVec 32)
  column : String → Option String

/-- A row of a domain table. -/
structure DomainRow where
  id : Int
  value : String

/-- The data table, the domain tables, and how the database compares strings. -/
structure Database where
  table : List TableRow
  domain : String → List DomainRow
  equal : String → String → Bool

/-! ### The query -/

/-- The query on certain columns, and its clause on the order of `NULL`. -/
structure GroupMeanQuery where
  ivList : List String
  nulls : Option NullOrder

/-- The query that is built. -/
def handleGroupMean (subprotocol : JdbcSubprotocol) (ivList : List String) : GroupMeanQuery where
  ivList := ivList
  nulls := if subprotocol = .ORACLE then some .FIRST else none

/-- One row of each domain table, with the name of its column. -/
abbrev Choice := List (String × DomainRow)

/-- A row of the result: the columns `_orderfix`, and `CaseID`. -/
abbrev Row := List Int × Option (BitVec 32)

/-- The columns `_orderfix` of a choice. -/
def orderfix (choice : Choice) : List Int := choice.map fun iv ↦ iv.2.id

namespace Database

variable (db : Database)

/-- The `WHERE` clause: each column has the value of the domain, which `NULL` never has, or the
domain's value is the wildcard. -/
def selects (choice : Choice) (row : TableRow) : Bool :=
  choice.all fun (iv, d) ↦
    (match row.column iv with
      | some v => db.equal v d.value
      | none => false) || db.equal d.value "\"*\""

/-- The cross join of the domain tables. -/
def choices (ivList : List String) : List Choice :=
  crossJoin (ivList.map fun iv ↦ (db.domain iv).map fun d ↦ (iv, d))

/-- The rows of both `SELECT`s. -/
def selected (ivList : List String) : List Row :=
  ((db.choices ivList).flatMap fun choice ↦
    (db.table.filter (db.selects choice)).map fun row ↦ (orderfix choice, row.CaseID)) ++
  (db.choices ivList).map fun choice ↦ (orderfix choice, none)

/-- The identifiers of the group of an output row. -/
def groupIds (choice : Choice) : List (BitVec 32) :=
  (db.table.filter (db.selects choice)).filterMap (·.CaseID)

end Database

/-- The order of the column `CaseID`. -/
def caseIdBefore (nulls : NullOrder) : Option (BitVec 32) → Option (BitVec 32) → Prop
  | some a, some b => a.toInt < b.toInt
  | none, some _ => nulls = .FIRST
  | some _, none => nulls = .LAST
  | none, none => False

/-- `ORDER BY` the columns `_orderfix` and then `CaseID`. -/
def Before (nulls : NullOrder) (r r' : Row) : Prop :=
  r.1 < r'.1 ∨ r.1 = r'.1 ∧ caseIdBefore nulls r.2 r'.2

/-- A result of the query: the rows of the `UNION`, without duplicates and in order. -/
structure IsResult (db : Database) (subprotocol : JdbcSubprotocol) (query : GroupMeanQuery)
    (rows : List Row) : Prop where
  mem_iff : ∀ row, row ∈ rows ↔ row ∈ db.selected query.ivList
  sorted : rows.Pairwise (Before (query.nulls.getD subprotocol.nullOrder))

/-! ### The handler -/

/-- `getRowCount`. -/
def getRowCount (domainSizes : String → Nat) (ivList : List String) : Nat :=
  ivList.foldl (fun rows iv ↦ rows * (domainSizes iv + 1)) 1

/-- The loop over the output rows. -/
def CuckooTable.buildRows (t : CuckooTable) :
    Nat → List (Option (BitVec 32)) → Except Status (List CuckooTable)
  | 0, _ => .ok []
  | rowCount + 1, xs =>
    match t.buildBobResultSet xs 100 with
    | (_, .error e) => .error e
    | (table, .ok xs) => (buildRows t rowCount xs).map (table :: ·)

/-- `G_I_M_YI_1`: `sqlResult.next()`, and then the loop. -/
def CuckooTable.G_I_M_YI_1 (t : CuckooTable) (rowCount : Nat) (sqlResult : List Row) :
    Except Status (List CuckooTable) :=
  t.buildRows rowCount (sqlResult.map Prod.snd).tail

/-- The table stores exactly the given identifiers. -/
def CuckooTable.HoldsIds (t : CuckooTable) (ids : List (BitVec 32)) : Prop :=
  ∃ l, (∀ id, id ∈ l ↔ id ∈ ids) ∧ Admitted t.toHashParams l ∧
    ∀ a < 2, t.Settled (bobSub a) t.subtables (l.map element)

/-! ### The one result -/

/-- The identifiers of a group in order. -/
def sortedIds (ids : List (BitVec 32)) : List (BitVec 32) :=
  ids.dedup.mergeSort fun a b ↦ a.toInt ≤ b.toInt

/-- The column `CaseID` of one output row. -/
def caseIds (nulls : NullOrder) (ids : List (BitVec 32)) : List (Option (BitVec 32)) :=
  match nulls with
  | .FIRST => none :: ids.map some
  | .LAST => ids.map some ++ [none]

theorem mem_sortedIds {ids : List (BitVec 32)} {id : BitVec 32} :
    id ∈ sortedIds ids ↔ id ∈ ids := by
  rw [sortedIds, List.mem_mergeSort, List.mem_dedup]

theorem pairwise_sortedIds (ids : List (BitVec 32)) :
    (sortedIds ids).Pairwise fun a b ↦ a.toInt < b.toInt := by
  have hle : (sortedIds ids).Pairwise fun a b ↦ decide (a.toInt ≤ b.toInt) = true :=
    List.pairwise_mergeSort (fun a b c hab hbc ↦ by simp only [decide_eq_true_eq] at *; omega)
      (fun a b ↦ by simp only [Bool.or_eq_true, decide_eq_true_eq]; omega) _
  have hnodup : (sortedIds ids).Nodup :=
    (List.mergeSort_perm _ _).nodup_iff.mpr (List.nodup_dedup ids)
  apply (hle.and hnodup).imp
  intro a b ⟨hab, hne⟩
  have hne' : a.toInt ≠ b.toInt := fun h ↦ hne (BitVec.toInt_inj.mp h)
  have hab' := of_decide_eq_true hab
  omega

theorem pairwise_caseIds (nulls : NullOrder) {ids : List (BitVec 32)}
    (h : ids.Pairwise fun a b ↦ a.toInt < b.toInt) :
    (caseIds nulls ids).Pairwise (caseIdBefore nulls) := by
  have hsome : (ids.map some).Pairwise (caseIdBefore nulls) := List.pairwise_map.mpr h
  cases nulls with
  | FIRST =>
    apply List.Pairwise.cons _ hsome
    intro x hx
    obtain ⟨id, -, rfl⟩ := List.mem_map.mp hx
    rfl
  | LAST =>
    rw [caseIds, List.pairwise_append]
    refine ⟨hsome, List.pairwise_singleton _ _, fun x hx y hy ↦ ?_⟩
    obtain ⟨id, -, rfl⟩ := List.mem_map.mp hx
    obtain rfl := List.mem_singleton.mp hy
    rfl

theorem mem_caseIds {nulls : NullOrder} {ids : List (BitVec 32)} {x : Option (BitVec 32)} :
    x ∈ caseIds nulls ids ↔ x = none ∨ ∃ id ∈ ids, x = some id := by
  cases nulls <;> simp [caseIds, or_comm, eq_comm]

theorem before_asymm (nulls : NullOrder) (r r' : Row) (h : Before nulls r r') :
    ¬ Before nulls r' r := by
  have hcase : ∀ x y, caseIdBefore nulls x y → ¬ caseIdBefore nulls y x := by
    intro x y hxy hyx
    cases x <;> cases y <;> cases nulls <;> simp [caseIdBefore] at hxy hyx
    all_goals omega
  rintro (hlt | ⟨heq, hlt⟩)
  · rcases h with hlt' | ⟨heq', -⟩
    · exact List.lt_asymm hlt hlt'
    · exact List.lt_irrefl _ (heq' ▸ hlt)
  · rcases h with hlt' | ⟨-, hlt'⟩
    · exact List.lt_irrefl _ (heq ▸ hlt')
    · exact hcase _ _ hlt' hlt

/-- The domain tables of a query: numbered in order, and with as many rows as the configuration
says. -/
structure Numbered (db : Database) (domainSizes : String → Nat) (ivList : List String) :
    Prop where
  ids : ∀ iv ∈ ivList, (db.domain iv).Pairwise fun d d' ↦ d.id < d'.id
  size : ∀ iv ∈ ivList, (db.domain iv).length = domainSizes iv + 1

section

variable {db : Database} {domainSizes : String → Nat} {ivList : List String}

theorem pairwise_choices (h : Numbered db domainSizes ivList) :
    (db.choices ivList).Pairwise fun c c' ↦ orderfix c < orderfix c' := by
  apply pairwise_crossJoin fun iv : String × DomainRow ↦ iv.2.id
  intro rows hrows
  obtain ⟨iv, hiv, rfl⟩ := List.mem_map.mp hrows
  rw [List.pairwise_map]
  exact h.ids iv hiv

/-- There is one output row for each choice. -/
theorem length_choices (h : Numbered db domainSizes ivList) :
    (db.choices ivList).length = getRowCount domainSizes ivList := by
  have hfold : ∀ n, ivList.foldl (fun rows iv ↦ rows * (domainSizes iv + 1)) n =
      n * (ivList.map fun iv ↦ (db.domain iv).length).prod := by
    have hsize := h.size
    clear h
    induction ivList with
    | nil => intro n; exact (Nat.mul_one n).symm
    | cons iv ivList ih =>
      intro n
      rw [List.foldl_cons, ih fun iv' hiv' ↦ hsize iv' (List.mem_cons_of_mem _ hiv'),
        List.map_cons, List.prod_cons, hsize iv List.mem_cons_self, Nat.mul_assoc]
  rw [Database.choices, length_crossJoin, getRowCount, hfold, Nat.one_mul, List.map_map]
  congr 1
  exact List.map_congr_left fun iv _ ↦ List.length_map _

/-- The column `CaseID` of the result: the output rows one after the other. -/
theorem IsResult.caseId_column {subprotocol : JdbcSubprotocol} {nulls : Option NullOrder}
    {rows : List Row} (h : IsResult db subprotocol ⟨ivList, nulls⟩ rows)
    (hnum : Numbered db domainSizes ivList) :
    rows.map Prod.snd = (db.choices ivList).flatMap fun choice ↦
      caseIds (nulls.getD subprotocol.nullOrder) (sortedIds (db.groupIds choice)) := by
  generalize hnulls : nulls.getD subprotocol.nullOrder = order
  have hsorted := h.sorted
  dsimp only at hsorted
  rw [hnulls] at hsorted
  have hcanonical : ((db.choices ivList).flatMap fun choice ↦
      (caseIds order (sortedIds (db.groupIds choice))).map fun x ↦
        (orderfix choice, x)).Pairwise (Before order) := by
    rw [List.pairwise_flatMap]
    constructor
    · intro choice _
      rw [List.pairwise_map]
      apply (pairwise_caseIds order (pairwise_sortedIds _)).imp
      exact fun h ↦ .inr ⟨rfl, h⟩
    · apply (pairwise_choices hnum).imp
      intro c c' hlt r hr r' hr'
      obtain ⟨x, -, rfl⟩ := List.mem_map.mp hr
      obtain ⟨x', -, rfl⟩ := List.mem_map.mp hr'
      exact .inl hlt
  have hrows := eq_of_pairwise_of_mem_iff (before_asymm order) hsorted hcanonical fun row ↦ by
    rw [h.mem_iff, Database.selected]
    simp only [List.mem_append, List.mem_flatMap, List.mem_map, mem_caseIds, mem_sortedIds,
      Database.groupIds, List.mem_filterMap]
    constructor
    · rintro (⟨c, hc, t, ht, rfl⟩ | ⟨c, hc, rfl⟩)
      · refine ⟨c, hc, t.CaseID, ?_, rfl⟩
        cases hid : t.CaseID with
        | none => exact .inl rfl
        | some id => exact .inr ⟨id, ⟨t, ht, hid⟩, rfl⟩
      · exact ⟨c, hc, none, .inl rfl, rfl⟩
    · rintro ⟨c, hc, x, rfl | ⟨id, ⟨t, ht, hid⟩, rfl⟩, rfl⟩
      · exact .inr ⟨c, hc, rfl⟩
      · exact .inl ⟨c, hc, t, ht, by rw [hid]⟩
  rw [hrows, List.map_flatMap]
  congr 1
  funext choice
  rw [List.map_map]
  exact List.map_id _

end

/-! ### The tables of the rows -/

namespace CuckooTable

variable {t table : CuckooTable} {ids l : List (BitVec 32)}

/-- What one build leaves. -/
private theorem holdsIds_of_buildBob (h : t.buildBob (some l) 100 = (table, .ok ()))
    (hmem : ∀ id, id ∈ l ↔ id ∈ ids) : table.HoldsIds ids := by
  obtain ⟨hparams, hadmitted, hsettled⟩ := buildBob_ok h
  rw [← hparams] at hadmitted hsettled
  exact ⟨l, hmem, hadmitted, hsettled⟩

/-- A settled element is one of any list that settles in the same cells. -/
private theorem mem_of_settled {p : HashParams} {sub : Nat → List Nat} {T : Nat → Nat → Nat}
    {xs ys : List Nat} (hsub : ∀ w < 2, sub w ≠ []) (hx : p.Settled sub T xs)
    (hy : p.Settled sub T ys) (ha : ∀ x ∈ xs, p.Admissible x) {x : Nat} (hmem : x ∈ xs) :
    x ∈ ys := by
  obtain ⟨H, hsum, hpub⟩ := hx
  obtain ⟨H', hsum', hpub'⟩ := hy
  have hside : ∃ w < 2, x ∈ H w := by
    have hxs : x ∈ H 0 + H 1 := hsum ▸ hmem
    rcases Multiset.mem_add.mp hxs with h | h
    · exact ⟨0, by decide, h⟩
    · exact ⟨1, by decide, h⟩
  obtain ⟨w, hw, hxw⟩ := hside
  obtain ⟨vc, hvc⟩ := List.exists_mem_of_ne_nil _ (hsub w hw)
  have hstores := ((hpub w hw vc hvc).stores_iff x (ha x hmem)).mpr hxw
  have hxw' := ((hpub' w hw vc hvc).stores_iff x (ha x hmem)).mp hstores
  rw [← Multiset.mem_coe, ← hsum']
  have hw' : w = 0 ∨ w = 1 := by omega
  rcases hw' with rfl | rfl <;> simp [hxw']

/-- A table that is built from one list and stores the identifiers of another one has the same
elements for both. -/
private theorem element_mem_iff (h : t.buildBob (some l) 100 = (table, .ok ()))
    (hholds : table.HoldsIds ids) (x : Nat) : x ∈ l.map element ↔ x ∈ ids.map element := by
  obtain ⟨hparams, hadmitted, hsettled⟩ := buildBob_ok h
  rw [← hparams] at hadmitted hsettled
  obtain ⟨l', hmem, hadmitted', hsettled'⟩ := hholds
  have hl' : x ∈ l'.map element ↔ x ∈ ids.map element := by
    simp only [List.mem_map, hmem]
  rw [← hl']
  have hsub : ∀ w < 2, bobSub 0 w ≠ [] := fun _ _ ↦ List.cons_ne_nil _ _
  constructor
  · exact mem_of_settled hsub (hsettled 0 (by decide)) (hsettled' 0 (by decide))
      hadmitted.admissible
  · exact mem_of_settled hsub (hsettled' 0 (by decide)) (hsettled 0 (by decide))
      hadmitted'.admissible

/-- A table that is built from a part of a group does not store the group. -/
private theorem not_holdsIds_of_tail {x : BitVec 32} (hx : x ∉ l) (hxids : x ∈ ids)
    (hl : ∀ id ∈ l, id ∈ ids) (h : t.buildBob (some l) 100 = (table, .ok ())) :
    ¬ table.HoldsIds ids := by
  intro hholds
  have hmem := (element_mem_iff h hholds (element x)).mpr (List.mem_map_of_mem hxids)
  obtain ⟨y, hy, heq⟩ := List.mem_map.mp hmem
  obtain ⟨l', hmem', hadmitted', -⟩ := hholds
  have hinj := List.inj_on_of_nodup_map hadmitted'.nodup
  have hxy := hinj ((hmem' y).mpr (hl y hy)) ((hmem' x).mpr hxids) heq
  exact hx (hxy ▸ hy)

/-- One row: the identifiers up to the next `NULL`. -/
private theorem buildRows_cons {rowCount : Nat} (l : List (BitVec 32))
    (rest : List (Option (BitVec 32))) (hrest : ∀ x, rest.head? = some x → x = none)
    {tables : List CuckooTable}
    (h : t.buildRows (rowCount + 1) (l.map some ++ rest) = .ok tables) :
    ∃ table tables', tables = table :: tables' ∧
      t.buildBob (some l) 100 = (table, .ok ()) ∧
      t.buildRows rowCount rest.tail = .ok tables' := by
  rw [buildRows] at h
  split at h
  · cases h
  · next table xs hbuild =>
    obtain ⟨hbob, rfl⟩ := buildBobResultSet_ok hrest hbuild
    cases hrows : t.buildRows rowCount rest.tail with
    | error e =>
      rw [hrows] at h
      cases h
    | ok tables' =>
      rw [hrows] at h
      exact ⟨table, tables', (Except.ok.inj h).symm, hbob, rfl⟩

/-- Every row gets its group where each group comes behind its `NULL`. -/
private theorem buildRows_first {α : Type} {groups : α → List (BitVec 32)} (rows : List α)
    {tables : List CuckooTable}
    (h : t.buildRows rows.length
      (rows.flatMap fun row ↦ caseIds .FIRST (sortedIds (groups row))).tail = .ok tables) :
    List.Forall₂ (fun table row ↦ table.HoldsIds (groups row)) tables rows := by
  induction rows generalizing tables with
  | nil =>
    obtain rfl := Except.ok.inj h
    exact .nil
  | cons row rows ih =>
    rw [List.flatMap_cons, caseIds, List.cons_append, List.tail_cons] at h
    obtain ⟨table, tables', rfl, hbob, hrows⟩ := buildRows_cons _ _ (fun x hx ↦ by
      cases rows with
      | nil => cases hx
      | cons row' rows => exact (Option.some.inj hx).symm) h
    exact .cons (holdsIds_of_buildBob hbob fun id ↦ mem_sortedIds) (ih hrows)

/-- Where each group comes before its `NULL` and the first one is empty, every row gets the next
row's group. -/
private theorem buildRows_last {α : Type} {groups : α → List (BitVec 32)} (rows : List α)
    {tables : List CuckooTable}
    (h : t.buildRows (rows.length + 1)
      (rows.flatMap fun row ↦ caseIds .LAST (sortedIds (groups row))) = .ok tables)
    (row₀ : α) (hempty : groups row₀ = []) :
    List.Forall₂ (fun table row ↦ table.HoldsIds (groups row)) tables (row₀ :: rows) ↔
      ∀ row ∈ rows, groups row = [] := by
  induction rows generalizing tables row₀ with
  | nil =>
    obtain ⟨table, tables', rfl, hbob, hrows⟩ :=
      buildRows_cons [] [] (fun _ hx ↦ nomatch hx) h
    obtain rfl := Except.ok.inj hrows
    have hholds : table.HoldsIds (groups row₀) :=
      holdsIds_of_buildBob hbob fun id ↦ by rw [hempty]
    exact ⟨fun _ _ hrow ↦ (nomatch hrow), fun _ ↦ .cons hholds .nil⟩
  | cons row rows ih =>
    rw [List.flatMap_cons, caseIds, List.append_assoc] at h
    obtain ⟨table, tables', rfl, hbob, hrows⟩ :=
      buildRows_cons _ (none :: _) (fun x hx ↦ (Option.some.inj hx).symm) h
    rw [List.tail_cons] at hrows
    rw [List.forall₂_cons, List.forall_mem_cons]
    constructor
    · rintro ⟨hholds, htables⟩
      -- the row's table has the elements of the next row's group
      have hnone : groups row = [] := by
        rw [List.eq_nil_iff_forall_not_mem]
        intro id hid
        have hmem := (element_mem_iff hbob hholds (element id)).mp
          (List.mem_map_of_mem (mem_sortedIds.mpr hid))
        rw [hempty] at hmem
        cases hmem
      exact ⟨hnone, (ih hrows row hnone).mp htables⟩
    · rintro ⟨hnone, hall⟩
      refine ⟨holdsIds_of_buildBob hbob fun id ↦ ?_, (ih hrows row hnone).mpr hall⟩
      rw [mem_sortedIds, hnone, hempty]

section

variable {db : Database} {subprotocol : JdbcSubprotocol} {domainSizes : String → Nat}
  {ivList : List String} {sqlResult : List Row} {t : CuckooTable} {tables : List CuckooTable}

/-- Behind its `NULL`, each row finds its own group. -/
theorem forall₂_holdsIds (hnum : Numbered db domainSizes ivList)
    (hresult : IsResult db subprotocol (handleGroupMean subprotocol ivList) sqlResult)
    (hbuild : t.G_I_M_YI_1 (getRowCount domainSizes ivList) sqlResult = .ok tables)
    (hne : subprotocol ≠ .POSTGRESQL) :
    List.Forall₂ (fun table choice ↦ table.HoldsIds (db.groupIds choice)) tables
      (db.choices ivList) := by
  rw [handleGroupMean] at hresult
  rw [G_I_M_YI_1, ← length_choices hnum, hresult.caseId_column hnum] at hbuild
  apply buildRows_first
  have horder : ((if subprotocol = .ORACLE then some NullOrder.FIRST else none).getD
      subprotocol.nullOrder) = .FIRST := by
    cases subprotocol with
    | MYSQL => rfl
    | ORACLE => rfl
    | POSTGRESQL => exact absurd rfl hne
  rwa [horder] at hbuild

/-- Where `NULL` comes last, only groups without identifiers are found. -/
theorem forall₂_holdsIds_postgresql (hnum : Numbered db domainSizes ivList)
    (hresult : IsResult db .POSTGRESQL (handleGroupMean .POSTGRESQL ivList) sqlResult)
    (hbuild : t.G_I_M_YI_1 (getRowCount domainSizes ivList) sqlResult = .ok tables) :
    List.Forall₂ (fun table choice ↦ table.HoldsIds (db.groupIds choice)) tables
        (db.choices ivList) ↔ ∀ choice ∈ db.choices ivList, db.groupIds choice = [] := by
  rw [handleGroupMean] at hresult
  rw [G_I_M_YI_1, ← length_choices hnum, hresult.caseId_column hnum] at hbuild
  generalize db.choices ivList = choices at hbuild ⊢
  change t.buildRows choices.length (choices.flatMap fun choice ↦
    caseIds .LAST (sortedIds (db.groupIds choice))).tail = .ok tables at hbuild
  cases choices with
  | nil =>
    obtain rfl := Except.ok.inj hbuild
    exact ⟨fun _ _ h ↦ (nomatch h), fun _ ↦ .nil⟩
  | cons choice choices =>
    rw [List.flatMap_cons, caseIds, List.length_cons] at hbuild
    cases hids : sortedIds (db.groupIds choice) with
    | nil =>
      have hempty : db.groupIds choice = [] := by
        rw [List.eq_nil_iff_forall_not_mem]
        intro id hid
        rw [← mem_sortedIds, hids] at hid
        cases hid
      rw [hids] at hbuild
      rw [buildRows_last choices hbuild choice hempty, List.forall_mem_cons]
      exact ⟨fun h ↦ ⟨hempty, h⟩, fun h ↦ h.2⟩
    | cons id ids =>
      -- the first identifier is on the row that is skipped
      rw [hids, List.map_cons, List.cons_append, List.cons_append, List.tail_cons,
        List.append_assoc] at hbuild
      obtain ⟨table, tables', rfl, hbob, -⟩ :=
        buildRows_cons _ (none :: _) (fun x hx ↦ (Option.some.inj hx).symm) hbuild
      have hmem : ∀ x, x ∈ id :: ids ↔ x ∈ db.groupIds choice := by
        intro x
        rw [← hids, mem_sortedIds]
      have hlt := (List.pairwise_cons.mp (hids ▸ pairwise_sortedIds (db.groupIds choice))).1
      have hnot := not_holdsIds_of_tail (fun h ↦ absurd (hlt id h) (Int.lt_irrefl _))
        ((hmem id).mp List.mem_cons_self)
        (fun x hx ↦ (hmem x).mp (List.mem_cons_of_mem _ hx)) hbob
      constructor
      · intro h
        exact absurd (List.forall₂_cons.mp h).1 hnot
      · intro h
        have hid := (hmem id).mp List.mem_cons_self
        rw [h choice List.mem_cons_self] at hid
        cases hid

end

end CuckooTable

/-- One student, and the domain of one column. -/
def smallDatabase : Database where
  table := [⟨some 1, fun _ ↦ some "Male"⟩]
  domain _ := [⟨1, "Male"⟩, ⟨2, "\"*\""⟩]
  equal v w := v == w

theorem numbered_smallDatabase : Numbered smallDatabase (fun _ ↦ 1) ["Sex"] where
  ids _ _ := by simp [smallDatabase]
  size _ _ := rfl

private theorem selected_smallDatabase :
    smallDatabase.selected ["Sex"] = [([1], some 1), ([2], some 1), ([1], none), ([2], none)] := by
  decide

theorem isResult_smallDatabase :
    IsResult smallDatabase .MYSQL (handleGroupMean .MYSQL ["Sex"])
      [([1], none), ([1], some 1), ([2], none), ([2], some 1)] where
  mem_iff row := by
    rw [handleGroupMean, selected_smallDatabase]
    simp only [List.mem_cons, List.not_mem_nil, or_false]
    tauto
  sorted := by
    simp [Before, caseIdBefore, handleGroupMean, JdbcSubprotocol.nullOrder,
      List.cons_lt_cons_iff]

theorem isResult_smallDatabase_postgresql :
    IsResult smallDatabase .POSTGRESQL (handleGroupMean .POSTGRESQL ["Sex"])
      [([1], some 1), ([1], none), ([2], some 1), ([2], none)] where
  mem_iff row := by
    rw [handleGroupMean, selected_smallDatabase]
    simp only [List.mem_cons, List.not_mem_nil, or_false]
    tauto
  sorted := by
    simp [Before, caseIdBefore, handleGroupMean, JdbcSubprotocol.nullOrder,
      List.cons_lt_cons_iff]

end Safrn.Cuckoo
