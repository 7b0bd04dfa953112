import Safrn.Java.RawUtil

/-!
# Queries between the servers

Models `readQuery` and `writeQuery` of `BackServerRawHandler.java:4337-4410,4533-4554` and
`writeQuery` of `FrontServerRawHandler.java:932-953`. A query is framed by its length; the items in
it are read from all bytes of the buffer, and the length is compared at the end. The longest array
that can be allocated is a parameter.
-/

namespace Safrn.Java

open Safrn.Base ByteBuf Writer RawUtil

/-- What `readQuery` sets. -/
structure Query where
  analysis : JavaString
  loanlinkbool : Bool
  ivList : List JavaString
  dvList : List JavaString
  deriving DecidableEq

/-- `MessageType.QUERY`. -/
def MessageType.QUERY : BitVec 32 := 2

namespace QueryCodec

variable (charset : Charset) (limit : ℕ)

/-! ### Writing -/

/-- A list: its size, and its strings. -/
def writeList (strings : List JavaString) : Writer := do
  writeInt (BitVec.ofNat 32 strings.length)
  writeEach (writeString charset) strings

/-- What both servers write. -/
def writeQueryOf (queryId : BitVec 128) (query : Query) : Writer := do
  writeInt MessageType.QUERY
  writeBytes (bigEndian 16 queryId)
  writeFrame do
    writeString charset query.analysis
    writeInt (if query.loanlinkbool then 1 else 0)
    writeList charset query.ivList
    writeList charset query.dvList

/-- The fields of `BackServerRawHandler` that it writes. -/
structure BackServerRawHandler where
  queryId : BitVec 128
  analysis : JavaString
  loanlinkbool : Bool
  ivList : List JavaString
  dvList : List JavaString

/-- `BackServerRawHandler.writeQuery`. -/
def BackServerRawHandler.writeQuery (handler : BackServerRawHandler) : Writer :=
  writeQueryOf charset handler.queryId
    ⟨handler.analysis, handler.loanlinkbool, handler.ivList, handler.dvList⟩

/-- `FrontServerIv`. -/
structure FrontServerIv where
  name : JavaString

/-- `FrontServerDv`. -/
structure FrontServerDv where
  name : JavaString

/-- The fields of the front server's query that it writes. -/
structure QueryStart where
  queryId : BitVec 128
  analysis : JavaString
  loanlinkbool : Bool
  ivList : List FrontServerIv
  dvList : List FrontServerDv

/-- `FrontServerRawHandler.writeQuery`. -/
def QueryStart.writeQuery (queryStart : QueryStart) : Writer :=
  writeQueryOf charset queryStart.queryId
    ⟨queryStart.analysis, queryStart.loanlinkbool, queryStart.ivList.map FrontServerIv.name,
      queryStart.dvList.map FrontServerDv.name⟩

/-! ### Reading -/

/-- `new ArrayList<String>(initialCapacity)`. -/
def newArrayList (initialCapacity : ℕ) : Reader Unit :=
  if limit < initialCapacity then throw .outOfMemoryError else pure ()

/-- The loop over the strings of a list. -/
def readStrings : ℕ → Reader (List JavaString)
  | 0 => return []
  | n + 1 => do
    match ← readString charset with
    | none => throw .parseFailure
    | some s => return s :: (← readStrings n)

/-- A list: its size, and its strings. -/
def readList : Reader (List JavaString) := do
  let size ← readInt
  if size.toInt < 0 then throw .parseFailure
  else
    newArrayList limit size.toNat
    readStrings charset size.toNat

/-- What is read behind the analysis, where the query starts at `n0` and has length `n`. -/
def readLists (n n0 : ℕ) (analysis : JavaString) : Reader Query := do
  let loanlinkbool ← readInt
  let ivList ← readList charset limit
  let dvList ← readList charset limit
  let n1 ← getReaderIndex
  if (n1 - n0 : ℤ) ≠ n then throw .parseFailure
  else return ⟨analysis, loanlinkbool != 0, ivList, dvList⟩

/-- What is read behind the length `n`. -/
def readBody (n : ℕ) : Reader Query := do
  let n0 ← getReaderIndex
  match ← readString charset with
  | none => throw .parseFailure
  | some analysis => readLists charset limit n n0 analysis

/-- `readQuery`; `none` is `false`. -/
def readQuery : Reader (Option Query) := readItem (readBody charset limit)

/-! ### What is written -/

variable {charset} {limit} {buf : ByteBuf} {rest : List (BitVec 8)} {query : Query}

variable (charset) in
/-- The bytes of a string behind its length. -/
def stringBytes (s : JavaString) : List (BitVec 8) := frame (charset.encode s)

variable (charset) in
/-- The bytes of a list. -/
def listBytes (strings : List JavaString) : List (BitVec 8) :=
  bigEndian 4 (BitVec.ofNat 32 strings.length) ++ strings.flatMap (stringBytes charset)

variable (charset) in
/-- The bytes of a query behind its length. -/
def queryBytes (query : Query) : List (BitVec 8) :=
  stringBytes charset query.analysis ++
    (bigEndian 4 (if query.loanlinkbool then 1 else 0) ++
      (listBytes charset query.ivList ++ listBytes charset query.dvList))

theorem appends_writeString (s : JavaString) :
    Appends (writeString charset s) (stringBytes charset s) := (appends_writeBytes _).writeFrame

theorem appends_writeList (strings : List JavaString) :
    Appends (writeList charset strings) (listBytes charset strings) :=
  (appends_writeInt _).andThen (appends_writeEach appends_writeString strings)

/-- A message is its type, the query id and the query. -/
theorem appends_writeQueryOf (queryId : BitVec 128) (query : Query) :
    Appends (writeQueryOf charset queryId query) (bigEndian 4 MessageType.QUERY ++
      (bigEndian 16 queryId ++ frame (queryBytes charset query))) := by
  apply (appends_writeInt _).andThen
  apply (appends_writeBytes _).andThen
  apply Appends.writeFrame
  apply (appends_writeString _).andThen
  apply (appends_writeInt _).andThen
  exact (appends_writeList _).andThen (appends_writeList _)

/-! ### What is read -/

/-- The bytes behind `n` strings, if these are there. -/
def skipStrings : ℕ → List (BitVec 8) → Option (List (BitVec 8))
  | 0, bytes => some bytes
  | n + 1, bytes =>
    match front bytes with
    | .complete _ rest => skipStrings n rest
    | _ => none

variable (charset) in
theorem readString_waits (h : front buf.readable = .incomplete) :
    ∃ buf', readString charset buf = .ok (none, buf') := by
  obtain ⟨buf', hread, -⟩ := readItem_incomplete _ h
  exact ⟨buf', hread⟩

variable (charset) in
/-- The loop reads the strings that are there, and reports when one is not. -/
theorem readStrings_spec (n : ℕ) (buf : ByteBuf) :
    match skipStrings n buf.readable with
    | none => readStrings charset n buf = .error .parseFailure
    | some rest => ∃ strings buf', readStrings charset n buf = .ok (strings, buf') ∧
        buf.MovesTo buf' rest := by
  induction n generalizing buf with
  | zero => exact ⟨[], buf, rfl, .refl buf⟩
  | succ n ih =>
    rw [skipStrings]
    cases hfront : front buf.readable with
    | incomplete =>
      obtain ⟨buf', hread⟩ := readString_waits charset hfront
      exact Reader.bind_ok hread
    | malformed => exact Reader.bind_error (readItem_malformed _ hfront)
    | complete body rest =>
      obtain ⟨buf', hread, hmoves⟩ := readString_complete charset hfront
      have hrest := ih buf'
      rw [hmoves.readable] at hrest
      have hstep : readStrings charset (n + 1) buf =
          (do return charset.decode body :: (← readStrings charset n) :
            Reader (List JavaString)) buf' := Reader.bind_ok hread
      dsimp only
      cases hskip : skipStrings n rest with
      | none =>
        rw [hskip] at hrest
        exact hstep.trans (Reader.bind_error hrest)
      | some last =>
        rw [hskip] at hrest
        obtain ⟨strings, buf'', hstrings, hmoves'⟩ := hrest
        exact ⟨_, buf'', hstep.trans (Reader.bind_ok hstrings), hmoves.trans hmoves'⟩

/-- A size is there, and is one of a list that can be allocated or is refused. -/
def SizeThere (limit : ℕ) (bytes : List (BitVec 8)) : Prop :=
  4 ≤ bytes.length ∧ ((intAt bytes).toInt < 0 ∨ (intAt bytes).toNat ≤ limit)

/-- The bytes behind a list, if it is there. -/
def skipList (bytes : List (BitVec 8)) : Option (List (BitVec 8)) :=
  if (intAt bytes).toInt < 0 then none else skipStrings (intAt bytes).toNat (bytes.drop 4)

variable (charset) in
/-- A list whose size is not there, or too large, ends in another exception. -/
theorem readList_error (h : ¬ SizeThere limit buf.readable) :
    ∃ e, readList charset limit buf = .error e ∧ e ≠ .parseFailure := by
  by_cases hint : 4 ≤ buf.readable.length
  · obtain ⟨buf', hread, -, -⟩ := readInt_ok hint
    have hneg : ¬ (intAt buf.readable).toInt < 0 := fun hneg ↦ h ⟨hint, .inl hneg⟩
    have hlimit : limit < (intAt buf.readable).toNat :=
      Nat.lt_of_not_le fun hle ↦ h ⟨hint, .inr hle⟩
    refine ⟨.outOfMemoryError, ?_, by decide⟩
    rw [readList, Reader.bind_ok hread, if_neg hneg, newArrayList, if_pos hlimit]
    rfl
  · exact ⟨_, Reader.bind_error (readInt_error (Nat.lt_of_not_le hint)), by decide⟩

variable (charset) in
/-- A list whose size is there is read, or reported. -/
theorem readList_spec (h : SizeThere limit buf.readable) :
    match skipList buf.readable with
    | none => readList charset limit buf = .error .parseFailure
    | some rest => ∃ strings buf', readList charset limit buf = .ok (strings, buf') ∧
        buf.MovesTo buf' rest := by
  obtain ⟨buf', hread, hmoves, -⟩ := readInt_ok h.1
  rw [skipList]
  by_cases hneg : (intAt buf.readable).toInt < 0
  · rw [if_pos hneg, readList, Reader.bind_ok hread, if_pos hneg]
    rfl
  · have hlimit : ¬ limit < (intAt buf.readable).toNat :=
      Nat.not_lt.mpr (h.2.resolve_left hneg)
    have hlist : readList charset limit buf =
        readStrings charset (intAt buf.readable).toNat buf' := by
      rw [readList, Reader.bind_ok hread, if_neg hneg, newArrayList, if_neg hlimit]
      rfl
    have hstrings := readStrings_spec charset (intAt buf.readable).toNat buf'
    rw [hmoves.readable] at hstrings
    rw [if_neg hneg, hlist]
    cases hskip : skipStrings (intAt buf.readable).toNat (buf.readable.drop 4) with
    | none =>
      rw [hskip] at hstrings
      exact hstrings
    | some rest =>
      rw [hskip] at hstrings
      obtain ⟨strings, buf'', hread', hmoves'⟩ := hstrings
      exact ⟨strings, buf'', hread', hmoves.trans hmoves'⟩

/-- If there is an exception, it is a parse failure. -/
def OnlyParseFailure {α : Type} (r : Except Status α) : Prop :=
  ∀ e, r = .error e → e = .parseFailure

theorem onlyParseFailure_of_error {α : Type} {r : Except Status α}
    (h : r = .error .parseFailure) : OnlyParseFailure r := by
  rintro e rfl
  exact Except.error.inj h

theorem onlyParseFailure_of_ok {α : Type} {r : Except Status α} {x : α} (h : r = .ok x) :
    OnlyParseFailure r := by
  rintro e rfl
  cases h

theorem not_onlyParseFailure {α : Type} {r : Except Status α} {e : Status} (h : r = .error e)
    (he : e ≠ .parseFailure) : ¬ OnlyParseFailure r := fun hall ↦ he (hall e h)

/-- The `int` and the sizes of both lists are there when it comes to them, and the lists can be
allocated. -/
def ListsThere (limit : ℕ) (bytes : List (BitVec 8)) : Prop :=
  4 ≤ bytes.length ∧ SizeThere limit (bytes.drop 4) ∧
    ∀ rest, skipList (bytes.drop 4) = some rest → SizeThere limit rest

/-- Reading a list and going on throws nothing but a parse failure just when its size is there and,
behind a list that is there, what comes next throws nothing else. -/
theorem readList_bind_iff {α : Type} {k : List JavaString → Reader α}
    {P : List (BitVec 8) → Prop}
    (hk : ∀ strings buf, OnlyParseFailure (k strings buf) ↔ P buf.readable) (buf : ByteBuf) :
    OnlyParseFailure ((readList charset limit >>= k) buf) ↔
      SizeThere limit buf.readable ∧ ∀ rest, skipList buf.readable = some rest → P rest := by
  by_cases hsize : SizeThere limit buf.readable
  · have hspec := readList_spec charset hsize
    cases hskip : skipList buf.readable with
    | none =>
      rw [hskip] at hspec
      refine iff_of_true (onlyParseFailure_of_error (Reader.bind_error hspec)) ⟨hsize, ?_⟩
      rintro rest ⟨⟩
    | some rest =>
      rw [hskip] at hspec
      obtain ⟨strings, buf', hread, hmoves⟩ := hspec
      rw [Reader.bind_ok hread, hk, hmoves.readable]
      constructor
      · intro hP
        refine ⟨hsize, ?_⟩
        rintro _ ⟨⟩
        exact hP
      · rintro ⟨-, hP⟩
        exact hP rest rfl
  · obtain ⟨e, herror, he⟩ := readList_error charset hsize
    exact iff_of_false (not_onlyParseFailure (Reader.bind_error herror) he)
      fun hthere ↦ hsize hthere.1

theorem readLists_onlyParseFailure_iff (n n0 : ℕ) (analysis : JavaString) (buf : ByteBuf) :
    OnlyParseFailure (readLists charset limit n n0 analysis buf) ↔
      ListsThere limit buf.readable := by
  by_cases hint : 4 ≤ buf.readable.length
  · obtain ⟨buf₁, hread, hmoves₁, -⟩ := readInt_ok hint
    rw [readLists, Reader.bind_ok hread, ListsThere, ← hmoves₁.readable, iff_true_intro hint,
      true_and]
    apply readList_bind_iff
    intro ivList buf₂
    rw [readList_bind_iff (P := fun _ ↦ True), and_iff_left fun _ _ ↦ trivial]
    intro dvList buf₃
    apply iff_of_true _ trivial
    rw [Reader.bind_ok (getReaderIndex_eq buf₃)]
    split
    · exact onlyParseFailure_of_error rfl
    · exact onlyParseFailure_of_ok rfl
  · apply iff_of_false _ fun hthere ↦ hint hthere.1
    apply not_onlyParseFailure (e := .indexOutOfBoundsException) _ (by decide)
    exact Reader.bind_error (readInt_error (Nat.lt_of_not_le hint))

theorem readBody_onlyParseFailure_iff (n : ℕ) (buf : ByteBuf) :
    OnlyParseFailure (readBody charset limit n buf) ↔
      ∀ analysis rest, front buf.readable = .complete analysis rest → ListsThere limit rest := by
  rw [readBody, Reader.bind_ok (getReaderIndex_eq buf)]
  cases hfront : front buf.readable with
  | incomplete =>
    obtain ⟨buf', hread⟩ := readString_waits charset hfront
    refine iff_of_true (onlyParseFailure_of_error (Reader.bind_ok hread)) ?_
    rintro analysis rest ⟨⟩
  | malformed =>
    refine iff_of_true (onlyParseFailure_of_error
      (Reader.bind_error (readItem_malformed _ hfront))) ?_
    rintro analysis rest ⟨⟩
  | complete body rest =>
    obtain ⟨buf', hread, hmoves⟩ := readString_complete charset hfront
    rw [Reader.bind_ok hread]
    dsimp only
    rw [readLists_onlyParseFailure_iff, hmoves.readable]
    constructor
    · rintro h _ _ ⟨⟩
      exact h
    · intro h
      exact h body rest rfl

theorem onlyParseFailure_map_iff {α β : Type} {r : Except Status α} {f : α → β} :
    OnlyParseFailure (r.map f) ↔ OnlyParseFailure r := by
  cases r <;> simp [OnlyParseFailure, Except.map]

/-- Reading throws nothing but a parse failure just when the `int` values are there. -/
theorem readQuery_onlyParseFailure_iff (buf : ByteBuf) :
    OnlyParseFailure (readQuery charset limit buf) ↔
      ∀ body more, buf.readable = frame body ++ more → body.length ≤ Integer.MAX_VALUE →
        ∀ analysis rest, front (body ++ more) = .complete analysis rest →
          ListsThere limit rest := by
  have hframe : ∀ body more, (buf.readable = frame body ++ more →
      body.length ≤ Integer.MAX_VALUE → ∀ analysis rest,
        front (body ++ more) = .complete analysis rest → ListsThere limit rest) ↔
      (front buf.readable = .complete body more → ∀ analysis rest,
        front (body ++ more) = .complete analysis rest → ListsThere limit rest) := by
    intro body more
    rw [front_eq_complete_iff, and_imp]
  simp only [hframe]
  cases hfront : front buf.readable with
  | incomplete =>
    obtain ⟨buf', hread, -⟩ := readItem_incomplete (readBody charset limit) hfront
    refine iff_of_true (onlyParseFailure_of_ok hread) ?_
    rintro body more ⟨⟩
  | malformed =>
    refine iff_of_true (onlyParseFailure_of_error (readItem_malformed _ hfront)) ?_
    rintro body more ⟨⟩
  | complete body more =>
    obtain ⟨buf', hmoves, hread⟩ := readItem_complete (readBody charset limit) hfront
    rw [readQuery, hread, onlyParseFailure_map_iff, readBody_onlyParseFailure_iff,
      hmoves.readable]
    constructor
    · rintro h _ _ ⟨⟩
      exact h
    · intro h
      exact h body more rfl

/-! ### Reading what was written -/

variable {strings : List JavaString}

/-- The query as it is read. -/
def received (charset : Charset) (query : Query) : Query where
  analysis := charset.decode (charset.encode query.analysis)
  loanlinkbool := query.loanlinkbool
  ivList := query.ivList.map fun s ↦ charset.decode (charset.encode s)
  dvList := query.dvList.map fun s ↦ charset.decode (charset.encode s)

theorem readStrings_flatMap (hmax : ∀ s ∈ strings, (charset.encode s).length ≤ Integer.MAX_VALUE)
    (h : buf.readable = strings.flatMap (stringBytes charset) ++ rest) :
    ∃ buf', readStrings charset strings.length buf =
        .ok (strings.map fun s ↦ charset.decode (charset.encode s), buf') ∧
      buf.MovesTo buf' rest := by
  induction strings generalizing buf with
  | nil => exact ⟨buf, rfl, rfl, h⟩
  | cons s strings ih =>
    rw [List.flatMap_cons, List.append_assoc] at h
    have hfront := front_eq_complete_iff.mpr ⟨h, hmax s List.mem_cons_self⟩
    obtain ⟨buf₁, hread, hmoves₁⟩ := readString_complete charset hfront
    obtain ⟨buf₂, hrest, hmoves₂⟩ :=
      ih (fun s hs ↦ hmax s (List.mem_cons_of_mem _ hs)) hmoves₁.readable
    exact ⟨buf₂, (Reader.bind_ok hread).trans (Reader.bind_ok hrest), hmoves₁.trans hmoves₂⟩

private theorem length_encode_le {s : JavaString} (hs : s ∈ strings) :
    (charset.encode s).length ≤ (listBytes charset strings).length := by
  obtain ⟨before, after, rfl⟩ := List.append_of_mem hs
  simp only [listBytes, List.flatMap_append, List.flatMap_cons, List.length_append, stringBytes,
    length_frame]
  omega

private theorem length_le_listBytes : strings.length ≤ (listBytes charset strings).length := by
  rw [listBytes, List.length_append]
  induction strings with
  | nil => exact Nat.zero_le _
  | cons s strings ih =>
    simp only [List.length_cons, List.flatMap_cons, List.length_append, stringBytes,
      length_frame, bigEndian_length] at ih ⊢
    omega

variable (limit) in
/-- A list is read when it can be allocated. -/
theorem readList_listBytes (hmax : (listBytes charset strings).length ≤ Integer.MAX_VALUE)
    (h : buf.readable = listBytes charset strings ++ rest) :
    (strings.length ≤ limit → ∃ buf', readList charset limit buf =
        .ok (strings.map fun s ↦ charset.decode (charset.encode s), buf') ∧
      buf.MovesTo buf' rest) ∧
    (¬ strings.length ≤ limit → readList charset limit buf = .error .outOfMemoryError) := by
  have hint : Integer.MAX_VALUE = 2147483647 := rfl
  have hsize : strings.length ≤ Integer.MAX_VALUE := Nat.le_trans length_le_listBytes hmax
  rw [listBytes, List.append_assoc] at h
  have hat : intAt buf.readable = BitVec.ofNat 32 strings.length := by
    rw [h, intAt_append]
  have hnat : (BitVec.ofNat 32 strings.length).toNat = strings.length := by
    rw [BitVec.toNat_ofNat, Nat.mod_eq_of_lt (by omega)]
  have hneg : ¬ (BitVec.ofNat 32 strings.length).toInt < 0 := by
    rw [BitVec.toInt_eq_toNat_cond, hnat]
    split <;> omega
  have hfour : 4 ≤ buf.readable.length := by
    rw [h, List.length_append, bigEndian_length]
    omega
  obtain ⟨buf₁, hread, hmoves₁, -⟩ := readInt_ok hfour
  rw [h, List.drop_left' (bigEndian_length 4 _)] at hmoves₁
  rw [hat] at hread
  have hlist : readList charset limit buf =
      (do newArrayList limit strings.length
          readStrings charset strings.length : Reader (List JavaString)) buf₁ := by
    rw [readList, Reader.bind_ok hread, if_neg hneg, hnat]
  rw [hlist]
  constructor
  · intro hlimit
    obtain ⟨buf₂, hstrings, hmoves₂⟩ := readStrings_flatMap
      (fun s hs ↦ Nat.le_trans (length_encode_le hs) hmax) hmoves₁.readable
    refine ⟨buf₂, ?_, hmoves₁.trans hmoves₂⟩
    rw [newArrayList, if_neg (Nat.not_lt.mpr hlimit)]
    exact hstrings
  · intro hlimit
    rw [newArrayList, if_pos (Nat.lt_of_not_le hlimit)]
    rfl

/-- The lists of the query can be allocated. -/
def Allocatable (limit : ℕ) (query : Query) : Prop :=
  query.ivList.length ≤ limit ∧ query.dvList.length ≤ limit

variable (limit) in
/-- A query is read when its lists can be allocated. -/
theorem readBody_queryBytes (hmax : (queryBytes charset query).length ≤ Integer.MAX_VALUE)
    (h : buf.readable = queryBytes charset query ++ rest) :
    (Allocatable limit query → ∃ buf',
      readBody charset limit (queryBytes charset query).length buf =
          .ok (received charset query, buf') ∧ buf.MovesTo buf' rest) ∧
    (¬ Allocatable limit query →
      readBody charset limit (queryBytes charset query).length buf =
        .error .outOfMemoryError) := by
  have hlengths : (charset.encode query.analysis).length ≤ Integer.MAX_VALUE ∧
      (listBytes charset query.ivList).length ≤ Integer.MAX_VALUE ∧
      (listBytes charset query.dvList).length ≤ Integer.MAX_VALUE := by
    simp only [queryBytes, stringBytes, List.length_append, length_frame] at hmax
    omega
  obtain ⟨hanalysis, hiv, hdv⟩ := hlengths
  have hbytes : buf.readable = frame (charset.encode query.analysis) ++
      (bigEndian 4 (if query.loanlinkbool then 1 else 0) ++
        (listBytes charset query.ivList ++ (listBytes charset query.dvList ++ rest))) := by
    rw [h, queryBytes, stringBytes]
    simp only [List.append_assoc]
  obtain ⟨buf₁, hread, hmoves₁⟩ :=
    readString_complete charset (front_eq_complete_iff.mpr ⟨hbytes, hanalysis⟩)
  have hfour : 4 ≤ buf₁.readable.length := by
    rw [hmoves₁.readable, List.length_append, bigEndian_length]
    omega
  obtain ⟨buf₂, hint, hmoves₂, -⟩ := readInt_ok hfour
  rw [hmoves₁.readable, intAt_append] at hint
  rw [hmoves₁.readable, List.drop_left' (bigEndian_length 4 _)] at hmoves₂
  have hbody : readBody charset limit (queryBytes charset query).length buf =
      readLists charset limit (queryBytes charset query).length buf.readerIndex
        (charset.decode (charset.encode query.analysis)) buf₁ := by
    rw [readBody, Reader.bind_ok (getReaderIndex_eq buf), Reader.bind_ok hread]
  rw [hbody, readLists, Reader.bind_ok hint]
  obtain ⟨hivOk, hivError⟩ := readList_listBytes limit hiv hmoves₂.readable
  by_cases hivLimit : query.ivList.length ≤ limit
  · obtain ⟨buf₃, hivList, hmoves₃⟩ := hivOk hivLimit
    rw [Reader.bind_ok hivList]
    obtain ⟨hdvOk, hdvError⟩ := readList_listBytes limit hdv hmoves₃.readable
    by_cases hdvLimit : query.dvList.length ≤ limit
    · obtain ⟨buf₄, hdvList, hmoves₄⟩ := hdvOk hdvLimit
      have hmoves := ((hmoves₁.trans hmoves₂).trans hmoves₃).trans hmoves₄
      have hindex := hmoves.readerIndex_add
      rw [h, List.length_append] at hindex
      have hbool : ((if query.loanlinkbool then 1 else 0 : BitVec 32) != 0) =
          query.loanlinkbool := by
        cases query.loanlinkbool <;> rfl
      rw [Reader.bind_ok hdvList, Reader.bind_ok (getReaderIndex_eq buf₄), if_neg (by omega)]
      refine ⟨fun _ ↦ ⟨buf₄, ?_, hmoves⟩, fun hnot ↦ absurd ⟨hivLimit, hdvLimit⟩ hnot⟩
      rw [received, hbool]
      rfl
    · refine ⟨fun hall ↦ absurd hall.2 hdvLimit, fun _ ↦ ?_⟩
      exact Reader.bind_error (hdvError hdvLimit)
  · refine ⟨fun hall ↦ absurd hall.1 hivLimit, fun _ ↦ ?_⟩
    exact Reader.bind_error (hivError hivLimit)

variable (limit) in
/-- A query that was written is read when its lists can be allocated. -/
theorem readQuery_frame (hmax : (frame (queryBytes charset query)).length ≤ Integer.MAX_VALUE)
    (h : buf.readable = frame (queryBytes charset query) ++ rest) :
    (Allocatable limit query → ∃ buf', readQuery charset limit buf =
        .ok (some (received charset query), buf') ∧ buf.MovesTo buf' rest) ∧
    (¬ Allocatable limit query → readQuery charset limit buf = .error .outOfMemoryError) := by
  have hbytes : (queryBytes charset query).length ≤ Integer.MAX_VALUE := by
    rw [length_frame] at hmax
    omega
  obtain ⟨buf₁, hmoves₁, hread⟩ :=
    readItem_complete (readBody charset limit) (front_eq_complete_iff.mpr ⟨h, hbytes⟩)
  obtain ⟨hok, herror⟩ := readBody_queryBytes limit hbytes hmoves₁.readable
  rw [readQuery, hread]
  constructor
  · intro hlimit
    obtain ⟨buf₂, hbody, hmoves₂⟩ := hok hlimit
    exact ⟨buf₂, by rw [hbody]; rfl, hmoves₁.trans hmoves₂⟩
  · intro hlimit
    rw [herror hlimit]
    rfl

/-- All strings of the query are well formed. -/
def QueryWellFormed (query : Query) : Prop :=
  WellFormed query.analysis ∧ (∀ s ∈ query.ivList, WellFormed s) ∧
    ∀ s ∈ query.dvList, WellFormed s

theorem map_decode_encode_iff (hcharset : charset.Lawful) :
    strings.map (fun s ↦ charset.decode (charset.encode s)) = strings ↔
      ∀ s ∈ strings, WellFormed s := by
  induction strings with
  | nil => simp
  | cons s strings ih =>
    rw [List.map_cons, List.cons.injEq, ih, hcharset.decode_encode_iff, List.forall_mem_cons]

theorem received_eq_iff (hcharset : charset.Lawful) :
    received charset query = query ↔ QueryWellFormed query := by
  obtain ⟨analysis, loanlinkbool, ivList, dvList⟩ := query
  simp only [received, Query.mk.injEq, hcharset.decode_encode_iff,
    map_decode_encode_iff hcharset, true_and, QueryWellFormed]

variable (charset) in
/-- The bytes are what one of the servers writes for the query. -/
def Written (query : Query) (out : List (BitVec 8)) : Prop :=
  (∃ handler : BackServerRawHandler, handler.writeQuery charset [] = .ok ((), out) ∧
    query = ⟨handler.analysis, handler.loanlinkbool, handler.ivList, handler.dvList⟩) ∨
  ∃ queryStart : QueryStart, queryStart.writeQuery charset [] = .ok ((), out) ∧
    query = ⟨queryStart.analysis, queryStart.loanlinkbool,
      queryStart.ivList.map FrontServerIv.name, queryStart.dvList.map FrontServerDv.name⟩

/-- Behind the type and the query id stands the query. -/
theorem Written.drop_eq {out : List (BitVec 8)} (h : Written charset query out) :
    out.drop 20 = frame (queryBytes charset query) ∧
      (frame (queryBytes charset query)).length ≤ Integer.MAX_VALUE := by
  have hboth : ∃ queryId, writeQueryOf charset queryId query [] = .ok ((), out) := by
    rcases h with ⟨handler, hwrite, rfl⟩ | ⟨queryStart, hwrite, rfl⟩
    · exact ⟨handler.queryId, hwrite⟩
    · exact ⟨queryStart.queryId, hwrite⟩
  obtain ⟨queryId, hwrite⟩ := hboth
  obtain ⟨rfl, hmax⟩ := (appends_writeQueryOf queryId query).eq_of_ok hwrite
  constructor
  · rw [← List.append_assoc]
    apply List.drop_left'
    rw [List.length_append, bigEndian_length, bigEndian_length]
  · simp only [List.length_append] at hmax
    omega

/-- Of what either server wrote, the query is read back just when its strings are well formed and
its lists can be allocated, and exactly its bytes are taken; a part of it is waited for; and
reading throws nothing but a parse failure just when the `int` values in the query are there and
its lists can be allocated. -/
theorem readQuery_spec (charset : Charset) (hcharset : charset.Lawful) (limit : ℕ) :
    (∀ query out, Written charset query out → ∀ buf more, buf.readable = out.drop 20 ++ more →
      ((∃ buf', readQuery charset limit buf = .ok (some query, buf') ∧ buf'.bytes = buf.bytes ∧
          buf'.readable = more) ↔
        QueryWellFormed query ∧ Allocatable limit query)) ∧
    (∀ query out, Written charset query out → ∀ buf more, more ≠ [] →
      buf.readable ++ more = out.drop 20 →
      ∃ buf', readQuery charset limit buf = .ok (none, buf') ∧ buf'.bytes = buf.bytes ∧
        buf'.readerIndex = buf.readerIndex) ∧
    (∀ buf, (∀ e, readQuery charset limit buf = .error e → e = .parseFailure) ↔
      ∀ body more, buf.readable = frame body ++ more → body.length ≤ Integer.MAX_VALUE →
        ∀ analysis rest, front (body ++ more) = .complete analysis rest →
          ListsThere limit rest) := by
  refine ⟨fun query out hwritten buf more hbuf ↦ ?_,
    fun query out hwritten buf more hmore hbuf ↦ ?_, readQuery_onlyParseFailure_iff⟩
  · obtain ⟨hdrop, hmax⟩ := hwritten.drop_eq
    rw [hdrop] at hbuf
    obtain ⟨hok, herror⟩ := readQuery_frame limit hmax hbuf
    constructor
    · rintro ⟨buf', hread, -, -⟩
      by_cases hlimit : Allocatable limit query
      · obtain ⟨buf'', hread', -⟩ := hok hlimit
        rw [hread'] at hread
        have heq : received charset query = query := by
          injection hread with hpair
          injection hpair with hquery
          exact Option.some.inj hquery
        exact ⟨(received_eq_iff hcharset).mp heq, hlimit⟩
      · rw [herror hlimit] at hread
        cases hread
    · rintro ⟨hwf, hlimit⟩
      obtain ⟨buf', hread, hmoves⟩ := hok hlimit
      rw [(received_eq_iff hcharset).mpr hwf] at hread
      exact ⟨buf', hread, hmoves.bytes, hmoves.readable⟩
  · obtain ⟨hdrop, hmax⟩ := hwritten.drop_eq
    rw [hdrop] at hbuf
    rw [length_frame] at hmax
    obtain ⟨buf', hread, hmoves⟩ := readItem_incomplete (readBody charset limit)
      (front_eq_incomplete hmore hbuf (by omega))
    refine ⟨buf', hread, hmoves.bytes, ?_⟩
    have hindex := hmoves.readerIndex_add
    omega

/-- A query with one independent variable. -/
theorem readQuery_small :
    ∃ buf', readQuery .replacing 10 (.ofBytes [0, 0, 0, 22, 0, 0, 0, 1, 0x61, 0, 0, 0, 1,
        0, 0, 0, 1, 0, 0, 0, 1, 0x62, 0, 0, 0, 0]) =
          .ok (some ⟨[0x61], true, [[0x62]], []⟩, buf') ∧ buf'.readable = [] := by
  have hwritten : Written .replacing ⟨[0x61], true, [[0x62]], []⟩ _ :=
    .inl ⟨⟨7, [0x61], true, [[0x62]], []⟩, rfl, rfl⟩
  have hwf : QueryWellFormed ⟨[0x61], true, [[0x62]], []⟩ := by
    refine ⟨⟨['a'], by decide⟩, ?_, by simp⟩
    intro s hs
    rw [List.mem_singleton.mp hs]
    exact ⟨['b'], by decide⟩
  obtain ⟨buf', hread, -, hreadable⟩ :=
    ((readQuery_spec .replacing Charset.replacing_lawful 10).1 _ _ hwritten
      (.ofBytes [0, 0, 0, 22, 0, 0, 0, 1, 0x61, 0, 0, 0, 1, 0, 0, 0, 1, 0, 0, 0, 1, 0x62, 0, 0,
        0, 0]) [] rfl).mpr ⟨hwf, by decide, by decide⟩
  exact ⟨buf', hread, hreadable⟩

/-- A query of an empty string and nothing behind it. -/
theorem readQuery_truncated :
    readQuery .replacing 10 (.ofBytes [0, 0, 0, 4, 0, 0, 0, 0]) =
      .error .indexOutOfBoundsException := rfl

end QueryCodec

end Safrn.Java
