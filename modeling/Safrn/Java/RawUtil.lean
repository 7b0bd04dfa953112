import Safrn.Java.ByteBuf
import Safrn.Java.Charset

/-!
# Integers and strings behind their lengths

Models `readBigInteger`, `readString`, `writeBigInteger` and `writeString` of
`RawUtil.java:123-223`. An item is read when all of it is there; a length below zero is refused.
-/

namespace Safrn.Java

open Safrn.Base

namespace RawUtil

open ByteBuf Writer

variable (charset : Charset)

/-- The length that was read, if as many bytes are there; else back to the mark. -/
def checkLength (n : BitVec 32) : Reader (Option ℕ) := do
  if n.toInt < 0 then throw .parseFailure
  else if ← isReadable n.toNat then return some n.toNat
  else
    resetReaderIndex
    return none

/-- The length of the next item, if all of the item is there. -/
def readLength : Reader (Option ℕ) := do
  if ← isReadable 4 then
    markReaderIndex
    let n ← readInt
    checkLength n
  else return none

/-- Read an item whose length comes first; `none` is `null`. -/
def readItem {α : Type} (read : ℕ → Reader α) : Reader (Option α) := do
  match ← readLength with
  | none => return none
  | some n =>
    let x ← read n
    return some x

/-- `readBigInteger`. -/
def readBigInteger : Reader (Option BigInteger) :=
  readItem fun n ↦ do
    let b ← readBytes n
    BigInteger.ofBytes b

/-- `readString`. -/
def readString : Reader (Option JavaString) :=
  readItem fun n ↦ do
    let bytes ← getBytes (← getReaderIndex) n
    skipBytes n
    return charset.decode bytes

/-- `writeBigInteger`. -/
def writeBigInteger (n : BigInteger) : Writer := do
  let b := n.toByteArray
  writeInt (BitVec.ofNat 32 b.length)
  writeBytes b

/-- `writeString`. -/
def writeString (s : JavaString) : Writer := writeFrame (writeBytes (charset.encode s))

/-! ### The item at the front of some bytes -/

/-- What is at the front of some bytes. -/
inductive Front
  | incomplete
  | malformed
  | complete (body rest : List (BitVec 8))

/-- A length, and as many bytes. -/
def front (bytes : List (BitVec 8)) : Front :=
  if bytes.length < 4 then .incomplete
  else if (intAt bytes).toInt < 0 then .malformed
  else if bytes.length - 4 < (intAt bytes).toNat then .incomplete
  else .complete ((bytes.drop 4).take (intAt bytes).toNat) ((bytes.drop 4).drop (intAt bytes).toNat)

variable {charset} {buf : ByteBuf} {body rest : List (BitVec 8)}

/-- What reading a length does. -/
theorem readLength_spec (buf : ByteBuf) :
    match front buf.readable with
    | .incomplete => ∃ buf', readLength buf = .ok (none, buf') ∧ buf.MovesTo buf' buf.readable
    | .malformed => readLength buf = .error .parseFailure
    | .complete body rest => ∃ buf', readLength buf = .ok (some body.length, buf') ∧
        buf.MovesTo buf' (body ++ rest) := by
  rw [front]
  by_cases hshort : buf.readable.length < 4
  · rw [if_pos hshort]
    refine ⟨buf, ?_, .refl buf⟩
    rw [readLength, Reader.bind_ok (isReadable_eq 4 buf), decide_eq_false (by omega)]
    rfl
  · obtain ⟨buf', hmoves, ⟨buf'', hreset, hback⟩, hread⟩ :=
      markReaderIndex_readInt (k := checkLength) (Nat.le_of_not_lt hshort)
    have hlength : readLength buf = checkLength (intAt buf.readable) buf' := by
      rw [readLength, Reader.bind_ok (isReadable_eq 4 buf), decide_eq_true (by omega)]
      exact hread
    have hleft : buf'.readable.length = buf.readable.length - 4 := by
      rw [hmoves.readable, List.length_drop]
    rw [if_neg hshort, hlength, checkLength]
    by_cases hneg : (intAt buf.readable).toInt < 0
    · rw [if_pos hneg, if_pos hneg]
      rfl
    · rw [if_neg hneg, if_neg hneg, Reader.bind_ok (isReadable_eq _ buf'), hleft]
      by_cases hfits : buf.readable.length - 4 < (intAt buf.readable).toNat
      · rw [if_pos hfits, decide_eq_false (by omega)]
        exact ⟨buf'', Reader.bind_ok hreset, hback⟩
      · rw [if_neg hfits, decide_eq_true (by omega)]
        refine ⟨buf', ?_, hmoves.bytes, ?_⟩
        · rw [List.length_take, List.length_drop, Nat.min_eq_left (by omega)]
          rfl
        · rw [List.take_append_drop]
          exact hmoves.readable

private theorem toInt_nonneg_iff (n : BitVec 32) : 0 ≤ n.toInt ↔ n.toNat ≤ Integer.MAX_VALUE := by
  have hmax : Integer.MAX_VALUE = 2147483647 := rfl
  have hlt := n.isLt
  rw [BitVec.toInt_eq_toNat_cond]
  split <;> omega

/-- A complete item is a frame. -/
theorem front_eq_complete_iff {bytes : List (BitVec 8)} :
    front bytes = .complete body rest ↔
      bytes = frame body ++ rest ∧ body.length ≤ Integer.MAX_VALUE := by
  constructor
  · intro h
    rw [front] at h
    split at h
    · cases h
    · split at h
      · cases h
      · next hshort hneg =>
        split at h
        · cases h
        · next hfits =>
          have hmax := (toInt_nonneg_iff _).mp (Int.not_lt.mp hneg)
          obtain ⟨rfl, rfl⟩ := Front.complete.inj h
          have hlength : ((bytes.drop 4).take (intAt bytes).toNat).length =
              (intAt bytes).toNat := by
            rw [List.length_take, List.length_drop, Nat.min_eq_left (by omega)]
          have hhead : bigEndian 4 (intAt bytes) = bytes.take 4 :=
            bigEndian_ofBigEndian (by rw [List.length_take, Nat.min_eq_left (by omega)])
          refine ⟨?_, by omega⟩
          rw [frame, hlength, BitVec.ofNat_toNat, BitVec.setWidth_eq, hhead, List.append_assoc,
            List.take_append_drop, List.take_append_drop]
  · rintro ⟨rfl, hmax⟩
    have hint : Integer.MAX_VALUE = 2147483647 := rfl
    have hat : intAt (frame body ++ rest) = BitVec.ofNat 32 body.length := by
      rw [frame, List.append_assoc, intAt_append]
    have hnat : (BitVec.ofNat 32 body.length).toNat = body.length := by
      rw [BitVec.toNat_ofNat, Nat.mod_eq_of_lt (by omega)]
    have hnonneg := (toInt_nonneg_iff (BitVec.ofNat 32 body.length)).mpr (by omega)
    have hdrop : (frame body ++ rest).drop 4 = body ++ rest := by
      rw [frame, List.append_assoc, List.drop_left' (bigEndian_length 4 _)]
    rw [front, hat, hnat, hdrop, List.take_left, List.drop_left, List.length_append, length_frame,
      if_neg (by omega), if_neg (by omega), if_neg (by omega)]

/-- A part of a frame is incomplete. -/
theorem front_eq_incomplete {part more : List (BitVec 8)} (hmore : more ≠ [])
    (h : part ++ more = frame body) (hmax : body.length ≤ Integer.MAX_VALUE) :
    front part = .incomplete := by
  have hpos := List.length_pos_iff.mpr hmore
  have hlength := congrArg List.length h
  rw [List.length_append, length_frame] at hlength
  have hint : Integer.MAX_VALUE = 2147483647 := rfl
  rw [front]
  by_cases hshort : part.length < 4
  · rw [if_pos hshort]
  · have hat : intAt part = BitVec.ofNat 32 body.length := by
      have htake : part.take 4 = (frame body).take 4 := by
        rw [← h, List.take_append_of_le_length (by omega)]
      rw [intAt, htake, ← intAt, frame, intAt_append]
    have hnat : (BitVec.ofNat 32 body.length).toNat = body.length := by
      rw [BitVec.toNat_ofNat, Nat.mod_eq_of_lt (by omega)]
    have hnonneg := (toInt_nonneg_iff (BitVec.ofNat 32 body.length)).mpr (by omega)
    rw [if_neg hshort, hat, hnat, if_neg (by omega), if_pos (by omega)]

/-- An item that is not all there is waited for. -/
theorem readItem_incomplete {α : Type} (read : ℕ → Reader α)
    (h : front buf.readable = .incomplete) :
    ∃ buf', readItem read buf = .ok (none, buf') ∧ buf.MovesTo buf' buf.readable := by
  have hspec := readLength_spec buf
  rw [h] at hspec
  obtain ⟨buf', hlength, hmoves⟩ := hspec
  exact ⟨buf', Reader.bind_ok hlength, hmoves⟩

theorem readItem_malformed {α : Type} (read : ℕ → Reader α)
    (h : front buf.readable = .malformed) : readItem read buf = .error .parseFailure := by
  have hspec := readLength_spec buf
  rw [h] at hspec
  exact Reader.bind_error hspec

/-- An item that is all there is read. -/
theorem readItem_complete {α : Type} (read : ℕ → Reader α)
    (h : front buf.readable = .complete body rest) :
    ∃ buf', buf.MovesTo buf' (body ++ rest) ∧
      readItem read buf = (read body.length buf').map fun p ↦ (some p.1, p.2) := by
  have hspec := readLength_spec buf
  rw [h] at hspec
  obtain ⟨buf', hlength, hmoves⟩ := hspec
  refine ⟨buf', hmoves, ?_⟩
  rw [readItem, Reader.bind_ok hlength]
  rfl

/-- The bytes of a number are taken off. -/
theorem readBigInteger_complete (h : front buf.readable = .complete body rest) :
    (∃ x buf', BigInteger.ofBytes body = .ok x ∧ readBigInteger buf = .ok (some x, buf') ∧
      buf.MovesTo buf' rest) ∨
    ∃ e, BigInteger.ofBytes body = .error e ∧ readBigInteger buf = .error e := by
  obtain ⟨buf₁, hmoves₁, hread⟩ := readItem_complete (fun n ↦ do
    let b ← readBytes n
    BigInteger.ofBytes b) h
  have hlength : body.length ≤ buf₁.readable.length := by
    rw [hmoves₁.readable, List.length_append]
    omega
  obtain ⟨buf₂, hbytes, hmoves₂, -⟩ := readBytes_ok hlength
  rw [Reader.bind_ok hbytes, hmoves₁.readable, List.take_left] at hread
  rw [hmoves₁.readable, List.drop_left] at hmoves₂
  cases hx : BigInteger.ofBytes body with
  | error e =>
    rw [hx] at hread
    exact .inr ⟨e, rfl, hread⟩
  | ok x =>
    rw [hx] at hread
    exact .inl ⟨x, buf₂, rfl, hread, hmoves₁.trans hmoves₂⟩

variable (charset) in
/-- The bytes of a string are taken off. -/
theorem readString_complete (h : front buf.readable = .complete body rest) :
    ∃ buf', readString charset buf = .ok (some (charset.decode body), buf') ∧
      buf.MovesTo buf' rest := by
  obtain ⟨buf₁, hmoves₁, hread⟩ := readItem_complete (fun n ↦ do
    let bytes ← getBytes (← getReaderIndex) n
    skipBytes n
    return charset.decode bytes) h
  have hlength : body.length ≤ buf₁.readable.length := by
    rw [hmoves₁.readable, List.length_append]
    omega
  obtain ⟨buf₂, hmoves₂, -, hbytes⟩ :=
    getBytes_skipBytes (k := fun bytes ↦ pure (charset.decode bytes)) hlength
  rw [hbytes, hmoves₁.readable, List.take_left] at hread
  rw [hmoves₁.readable, List.drop_left] at hmoves₂
  exact ⟨buf₂, hread, hmoves₁.trans hmoves₂⟩

/-! ### Items in a row -/

/-- What is written and read. -/
inductive Item
  | bigInteger (x : BigInteger)
  | string (s : JavaString)

inductive Kind
  | bigInteger
  | string
  deriving DecidableEq

def Item.kind : Item → Kind
  | .bigInteger _ => .bigInteger
  | .string _ => .string

variable (charset) in
def Item.write : Item → Writer
  | .bigInteger x => writeBigInteger x
  | .string s => writeString charset s

variable (charset) in
/-- Read an item of a kind. -/
def Kind.read : Kind → Reader (Option Item)
  | .bigInteger => do return (← readBigInteger).map .bigInteger
  | .string => do return (← readString charset).map .string

variable (charset) in
/-- The bytes of an item behind its length. -/
def Item.bytes : Item → List (BitVec 8)
  | .bigInteger x => x.toByteArray
  | .string s => charset.encode s

/-- A connection on which items are expected, and those read so far. -/
structure Receiver where
  items : List Item
  expected : List Kind
  buf : ByteBuf

variable (charset) in
/-- Read expected items until one is not there. -/
def readAll : List Kind → List Item → ByteBuf → Except Status Receiver
  | [], items, buf => .ok ⟨items, [], buf⟩
  | kind :: expected, items, buf =>
    match kind.read charset buf with
    | .error e => .error e
    | .ok (none, buf) => .ok ⟨items, kind :: expected, buf⟩
    | .ok (some item, buf) => readAll expected (items ++ [item]) buf

variable (charset) in
/-- Some bytes arrive. -/
def Receiver.receive (r : Receiver) (bytes : List (BitVec 8)) : Except Status Receiver :=
  readAll charset r.expected r.items (r.buf.append bytes)

variable (charset) in
def Receiver.receiveAll : Receiver → List (List (BitVec 8)) → Except Status Receiver
  | r, [] => .ok r
  | r, bytes :: chunks => (r.receive charset bytes).bind fun r ↦ r.receiveAll chunks

theorem appends_write (item : Item) :
    Appends (item.write charset) (frame (item.bytes charset)) := by
  cases item with
  | bigInteger x => exact (appends_writeInt _).andThen (appends_writeBytes _)
  | string s => exact (appends_writeBytes _).writeFrame

/-! ### What reading an item does -/

variable {kind : Kind} {item : Item}

variable (charset) in
theorem read_incomplete (kind : Kind) (h : front buf.readable = .incomplete) :
    ∃ buf', kind.read charset buf = .ok (none, buf') ∧ buf.MovesTo buf' buf.readable := by
  cases kind with
  | bigInteger =>
    obtain ⟨buf', hread, hmoves⟩ := readItem_incomplete _ h
    exact ⟨buf', Reader.bind_ok hread, hmoves⟩
  | string =>
    obtain ⟨buf', hread, hmoves⟩ := readItem_incomplete _ h
    exact ⟨buf', Reader.bind_ok hread, hmoves⟩

variable (charset) in
theorem read_malformed (kind : Kind) (h : front buf.readable = .malformed) :
    kind.read charset buf = .error .parseFailure := by
  cases kind with
  | bigInteger => exact Reader.bind_error (readItem_malformed _ h)
  | string => exact Reader.bind_error (readItem_malformed _ h)

/-- The bytes are too large a number, or none. -/
def NoBigInteger (body : List (BitVec 8)) : Prop :=
  body = [] ∨ Integer.MAX_VALUE < (signedValue body).natAbs.size

theorem ofBytes_error_iff {e : Status} : BigInteger.ofBytes body = .error e →
    NoBigInteger body ∧ e ≠ .parseFailure := by
  intro h
  rw [BigInteger.ofBytes] at h
  split at h
  · next hnil =>
    cases h
    exact ⟨.inl hnil, by decide⟩
  · rw [BigInteger.ofInt] at h
    split at h
    · cases h
    · next hrange =>
      cases h
      exact ⟨.inr (Nat.lt_of_not_le hrange), by decide⟩

theorem ofBytes_ok {x : BigInteger} (h : BigInteger.ofBytes body = .ok x) :
    ¬ NoBigInteger body := by
  rw [BigInteger.ofBytes] at h
  split at h
  · cases h
  · next hne =>
    rw [BigInteger.ofInt] at h
    split at h
    · next hrange =>
      rintro (hnil | hlt)
      · exact hne hnil
      · omega
    · cases h

variable (charset) in
/-- Reading a complete item. -/
theorem read_complete (kind : Kind) (h : front buf.readable = .complete body rest) :
    (∃ item buf', kind.read charset buf = .ok (some item, buf') ∧ buf.MovesTo buf' rest ∧
      (∀ s, item = .string s → s = charset.decode body) ∧
      ¬ (kind = .bigInteger ∧ NoBigInteger body)) ∨
    ∃ e, kind.read charset buf = .error e ∧ e ≠ .parseFailure ∧ kind = .bigInteger ∧
      NoBigInteger body := by
  cases kind with
  | bigInteger =>
    rcases readBigInteger_complete h with ⟨x, buf', hx, hread, hmoves⟩ | ⟨e, hx, hread⟩
    · refine .inl ⟨.bigInteger x, buf', Reader.bind_ok hread, hmoves, ?_, ?_⟩
      · intro s hs
        cases hs
      · rintro ⟨-, hno⟩
        exact ofBytes_ok hx hno
    · obtain ⟨hno, hne⟩ := ofBytes_error_iff hx
      exact .inr ⟨e, Reader.bind_error hread, hne, rfl, hno⟩
  | string =>
    obtain ⟨buf', hread, hmoves⟩ := readString_complete charset h
    refine .inl ⟨.string (charset.decode body), buf', Reader.bind_ok hread, hmoves, ?_, ?_⟩
    · intro s hs
      cases hs
      rfl
    · rintro ⟨hkind, -⟩
      cases hkind

/-- A reader throws nothing but a parse failure just when there is no empty or too large number. -/
theorem read_error_iff (kind : Kind) (buf : ByteBuf) :
    (∀ e, kind.read charset buf = .error e → e = .parseFailure) ↔
      ¬ (kind = .bigInteger ∧ ∃ body rest, buf.readable = frame body ++ rest ∧
        body.length ≤ Integer.MAX_VALUE ∧ NoBigInteger body) := by
  cases hfront : front buf.readable with
  | incomplete =>
    obtain ⟨buf', hread, -⟩ := read_incomplete charset kind hfront
    constructor
    · rintro - ⟨-, body, rest, hbytes, hmax, -⟩
      rw [front_eq_complete_iff.mpr ⟨hbytes, hmax⟩] at hfront
      cases hfront
    · intro _ e he
      rw [hread] at he
      cases he
  | malformed =>
    constructor
    · rintro - ⟨-, body, rest, hbytes, hmax, -⟩
      rw [front_eq_complete_iff.mpr ⟨hbytes, hmax⟩] at hfront
      cases hfront
    · intro _ e he
      rw [read_malformed charset kind hfront] at he
      exact (Except.error.inj he).symm
  | complete body rest =>
    rcases read_complete charset kind hfront with
      ⟨item, buf', hread, -, -, hno⟩ | ⟨e, hread, hne, hkind, hno⟩
    · constructor
      · rintro - ⟨hkind, body', rest', hbytes, hmax, hno'⟩
        rw [front_eq_complete_iff.mpr ⟨hbytes, hmax⟩] at hfront
        obtain ⟨rfl, -⟩ := Front.complete.inj hfront
        exact hno ⟨hkind, hno'⟩
      · intro _ e he
        rw [hread] at he
        cases he
    · obtain ⟨hbytes, hmax⟩ := front_eq_complete_iff.mp hfront
      constructor
      · intro hall
        exact absurd (hall e hread) hne
      · intro hall
        exact absurd ⟨hkind, body, rest, hbytes, hmax, hno⟩ hall

/-- The item can be written and read back. -/
def Item.WellFormed : Item → Prop
  | .bigInteger _ => True
  | .string s => Java.WellFormed s

/-- What was written is read. -/
theorem read_frame (hcharset : charset.Lawful) (hitem : item.WellFormed)
    (hmax : (item.bytes charset).length ≤ Integer.MAX_VALUE)
    (h : buf.readable = frame (item.bytes charset) ++ rest) :
    ∃ buf', item.kind.read charset buf = .ok (some item, buf') ∧ buf.MovesTo buf' rest := by
  have hfront := front_eq_complete_iff.mpr ⟨h, hmax⟩
  cases item with
  | bigInteger x =>
    rcases readBigInteger_complete hfront with ⟨y, buf', hy, hread, hmoves⟩ | ⟨e, hx, -⟩
    · rw [Item.bytes, x.ofBytes_toByteArray] at hy
      obtain rfl := Except.ok.inj hy
      exact ⟨buf', Reader.bind_ok hread, hmoves⟩
    · rw [Item.bytes, x.ofBytes_toByteArray] at hx
      cases hx
  | string s =>
    obtain ⟨buf', hread, hmoves⟩ := readString_complete charset hfront
    rw [Item.bytes, (hcharset.decode_encode_iff s).mpr hitem] at hread
    exact ⟨buf', Reader.bind_ok hread, hmoves⟩

/-! ### Items in any chunks -/

variable {items rest' : List Item} {tail : List (BitVec 8)}

variable (charset) in
/-- The bytes of items in a row. -/
def encode (items : List Item) : List (BitVec 8) :=
  items.flatMap fun item ↦ frame (item.bytes charset)

variable (charset) in
/-- The receiver has read all items but the last ones, and holds a part of the bytes of those; the
next item is not all there. -/
structure Receiver.Waits (r : Receiver) (items last : List Item) (tail : List (BitVec 8)) :
    Prop where
  items : r.items ++ last = items
  expected : r.expected = last.map Item.kind
  readable : r.buf.readable ++ tail = encode charset last
  waits : last = [] ∨ tail ≠ []

/-- The items of which all bytes are there are read. -/
theorem readAll_spec (hcharset : charset.Lawful) {last done : List Item}
    (hlast : ∀ item ∈ last, item.WellFormed ∧ (item.bytes charset).length ≤ Integer.MAX_VALUE)
    (hbuf : buf.readable ++ tail = encode charset last) :
    ∃ r last', readAll charset (last.map Item.kind) done buf = .ok r ∧
      r.Waits charset (done ++ last) last' tail := by
  induction last generalizing done buf with
  | nil => exact ⟨_, [], rfl, rfl, rfl, hbuf, .inl rfl⟩
  | cons item last ih =>
    obtain ⟨hitem, hmax⟩ := hlast item List.mem_cons_self
    have hwaits : ∀ more, frame (item.bytes charset) = buf.readable ++ more → more ≠ [] →
        tail ≠ [] → ∃ r last', readAll charset ((item :: last).map Item.kind) done buf = .ok r ∧
          r.Waits charset (done ++ item :: last) last' tail := by
      intro more hframe hmore htail
      obtain ⟨buf', hread, hmoves⟩ := read_incomplete charset item.kind
        (front_eq_incomplete hmore hframe.symm hmax)
      refine ⟨⟨done, (item :: last).map Item.kind, buf'⟩, item :: last, ?_, rfl, rfl, ?_,
        .inr htail⟩
      · rw [List.map_cons, readAll, hread]
      · rw [hmoves.readable, hbuf]
    have hcomplete : ∀ rest, buf.readable = frame (item.bytes charset) ++ rest →
        encode charset last = rest ++ tail →
        ∃ r last', readAll charset ((item :: last).map Item.kind) done buf = .ok r ∧
          r.Waits charset (done ++ item :: last) last' tail := by
      intro rest hreadable hrest
      obtain ⟨buf', hread, hmoves⟩ := read_frame hcharset hitem hmax hreadable
      have hlast' : ∀ item ∈ last, item.WellFormed ∧
          (item.bytes charset).length ≤ Integer.MAX_VALUE :=
        fun item hitem ↦ hlast item (List.mem_cons_of_mem _ hitem)
      have hbuf' : buf'.readable ++ tail = encode charset last := by
        rw [hmoves.readable, hrest]
      obtain ⟨r, last', hall, hr⟩ : ∃ r last',
          readAll charset (last.map Item.kind) (done ++ [item]) buf' = .ok r ∧
            r.Waits charset (done ++ [item] ++ last) last' tail := ih hlast' hbuf'
      refine ⟨r, last', ?_, ?_⟩
      · rw [List.map_cons, readAll, hread]
        exact hall
      · rwa [List.append_assoc] at hr
    rw [encode, List.flatMap_cons, List.append_eq_append_iff] at hbuf
    rcases hbuf with ⟨more, hframe, htail⟩ | ⟨rest, hreadable, hrest⟩
    · by_cases hmore : more = []
      · subst hmore
        rw [List.append_nil] at hframe
        exact hcomplete [] (by rw [hframe, List.append_nil]) htail.symm
      · exact hwaits more hframe hmore (by simp [htail, hmore])
    · exact hcomplete rest hreadable hrest

/-- A chunk brings the receiver nearer to the end of the items. -/
theorem Receiver.Waits.receive (hcharset : charset.Lawful) {r : Receiver} {last : List Item}
    {chunk : List (BitVec 8)}
    (hitems : ∀ item ∈ items, item.WellFormed ∧ (item.bytes charset).length ≤ Integer.MAX_VALUE)
    (h : r.Waits charset items last (chunk ++ tail)) :
    ∃ r' last', r.receive charset chunk = .ok r' ∧ r'.Waits charset items last' tail := by
  obtain ⟨rfl, hexpected, hreadable, -⟩ := h
  rw [Receiver.receive, hexpected]
  apply readAll_spec hcharset
  · intro item hitem
    exact hitems item (List.mem_append_right _ hitem)
  · rw [readable_append, List.append_assoc, hreadable]

theorem Receiver.Waits.receiveAll (hcharset : charset.Lawful) {chunks : List (List (BitVec 8))}
    {r : Receiver} {last : List Item}
    (hitems : ∀ item ∈ items, item.WellFormed ∧ (item.bytes charset).length ≤ Integer.MAX_VALUE)
    (h : r.Waits charset items last chunks.flatten) :
    ∃ r' last', r.receiveAll charset chunks = .ok r' ∧ r'.Waits charset items last' [] := by
  induction chunks generalizing r last with
  | nil => exact ⟨r, last, rfl, h⟩
  | cons chunk chunks ih =>
    obtain ⟨r₁, last₁, hreceive, h₁⟩ := h.receive hcharset hitems
    obtain ⟨r₂, last₂, hall, h₂⟩ := ih h₁
    refine ⟨r₂, last₂, ?_, h₂⟩
    rw [Receiver.receiveAll, hreceive]
    exact hall

/-- What is read is well formed. -/
theorem wellFormed_read (hcharset : charset.Lawful) {kind : Kind} {buf' : ByteBuf}
    (h : kind.read charset buf = .ok (some item, buf')) : item.WellFormed := by
  cases hfront : front buf.readable with
  | incomplete =>
    obtain ⟨buf'', hread, -⟩ := read_incomplete charset kind hfront
    rw [hread] at h
    cases h
  | malformed =>
    rw [read_malformed charset kind hfront] at h
    cases h
  | complete body rest =>
    rcases read_complete charset kind hfront with
      ⟨item', buf'', hread, -, hstring, -⟩ | ⟨e, hread, -⟩
    · rw [hread] at h
      cases h
      cases item with
      | bigInteger x => trivial
      | string s =>
        rw [hstring s rfl]
        exact hcharset.wellFormed_decode body
    · rw [hread] at h
      cases h

theorem wellFormed_readAll (hcharset : charset.Lawful) {expected : List Kind} {done : List Item}
    {r : Receiver} (hdone : ∀ item ∈ done, item.WellFormed)
    (h : readAll charset expected done buf = .ok r) : ∀ item ∈ r.items, item.WellFormed := by
  induction expected generalizing done buf with
  | nil =>
    cases h
    exact hdone
  | cons kind expected ih =>
    rw [readAll] at h
    split at h
    · cases h
    · cases h
      exact hdone
    · next item buf' hread =>
      apply ih _ h
      intro item' hitem'
      rcases List.mem_append.mp hitem' with hitem' | hitem'
      · exact hdone item' hitem'
      · rw [List.mem_singleton.mp hitem']
        exact wellFormed_read hcharset hread

theorem wellFormed_receiveAll (hcharset : charset.Lawful) {chunks : List (List (BitVec 8))}
    {r r' : Receiver} (hr : ∀ item ∈ r.items, item.WellFormed)
    (h : r.receiveAll charset chunks = .ok r') : ∀ item ∈ r'.items, item.WellFormed := by
  induction chunks generalizing r with
  | nil =>
    cases h
    exact hr
  | cons chunk chunks ih =>
    obtain ⟨r₁, hreceive, hall⟩ := bind_eq_ok.mp h
    exact ih (wellFormed_readAll hcharset hr hreceive) hall

/-- What is written fits into a buffer. -/
theorem length_bytes_le (h : (encode charset items).length ≤ Integer.MAX_VALUE)
    (hitem : item ∈ items) : (item.bytes charset).length ≤ Integer.MAX_VALUE := by
  obtain ⟨before, after, rfl⟩ := List.append_of_mem hitem
  simp only [encode, List.flatMap_append, List.flatMap_cons, List.length_append, length_frame] at h
  omega

/-- Items that are written are read from any chunks of the bytes just when all strings are well
formed; a part of an item is waited for; and reading throws nothing but a parse failure just when
there is no number of no bytes and none that is too large. -/
theorem framing_spec (charset : Charset) (hcharset : charset.Lawful) :
    (∀ items out chunks, writeEach (Item.write charset) items [] = .ok ((), out) →
      chunks.flatten = out →
      ((∃ r, Receiver.receiveAll charset ⟨[], items.map Item.kind, .ofBytes []⟩ chunks = .ok r ∧
          r.items = items ∧ r.expected = [] ∧ r.buf.readable = []) ↔
        ∀ item ∈ items, item.WellFormed)) ∧
    (∀ (kind : Kind) (buf : ByteBuf) (body more : List (BitVec 8)), more ≠ [] →
      body.length ≤ Integer.MAX_VALUE → buf.readable ++ more = frame body →
      ∃ buf', kind.read charset buf = .ok (none, buf') ∧ buf'.bytes = buf.bytes ∧
        buf'.readerIndex = buf.readerIndex) ∧
    (∀ (kind : Kind) (buf : ByteBuf),
      (∀ e, kind.read charset buf = .error e → e = .parseFailure) ↔
        ¬ (kind = .bigInteger ∧ ∃ body rest, buf.readable = frame body ++ rest ∧
          body.length ≤ Integer.MAX_VALUE ∧ NoBigInteger body)) := by
  refine ⟨fun items out chunks hwrite hchunks ↦ ?_, fun kind buf body more hmore hmax h ↦ ?_,
    fun kind buf ↦ read_error_iff kind buf⟩
  · obtain ⟨rfl, hmax⟩ := (appends_writeEach appends_write items).eq_of_ok hwrite
    constructor
    · rintro ⟨r, hall, rfl, -, -⟩
      exact wellFormed_receiveAll hcharset (by simp) hall
    · intro hitems
      have hstart : Receiver.Waits charset ⟨[], items.map Item.kind, .ofBytes []⟩ items items
          chunks.flatten := by
        refine ⟨rfl, rfl, hchunks, ?_⟩
        cases items with
        | nil => exact .inl rfl
        | cons item items =>
          refine .inr (List.ne_nil_of_length_pos ?_)
          rw [hchunks, List.flatMap_cons, List.length_append, length_frame]
          omega
      obtain ⟨r, last, hall, hr⟩ := hstart.receiveAll hcharset
        fun item hitem ↦ ⟨hitems item hitem, length_bytes_le hmax hitem⟩
      obtain rfl := hr.waits.resolve_right (fun h ↦ h rfl)
      refine ⟨r, hall, ?_, hr.expected, ?_⟩
      · rw [← hr.items, List.append_nil]
      · have hreadable := hr.readable
        rwa [List.append_nil] at hreadable
  · obtain ⟨buf', hread, hmoves⟩ :=
      read_incomplete charset kind (front_eq_incomplete hmore h hmax)
    refine ⟨buf', hread, hmoves.bytes, ?_⟩
    have hindex := hmoves.readerIndex_add
    omega

/-- A number and a string in three chunks. -/
theorem framing_spec_small :
    ∃ r, Receiver.receiveAll .replacing ⟨[], [.bigInteger, .string], .ofBytes []⟩
        [[0, 0], [0, 1, 5, 0, 0, 0], [1, 0x61]] = .ok r ∧
      r.items = [.bigInteger ⟨5, by decide⟩, .string [0x61]] ∧ r.expected = [] ∧
      r.buf.readable = [] := by
  apply ((framing_spec _ Charset.replacing_lawful).1
    [.bigInteger ⟨5, by decide⟩, .string [0x61]] _ _ rfl rfl).mpr
  intro item hitem
  rcases List.mem_cons.mp hitem with rfl | hitem
  · trivial
  · rw [List.mem_singleton.mp hitem]
    exact ⟨['a'], by decide⟩

/-- A number of no bytes is no parse failure, and an unpaired surrogate is lost. -/
theorem readBigInteger_empty :
    readBigInteger (.ofBytes [0, 0, 0, 0]) = .error .numberFormatException ∧
      Charset.replacing.decode (Charset.replacing.encode [0xD800]) ≠ [0xD800] := by
  refine ⟨rfl, ?_⟩
  intro h
  obtain ⟨text, htext⟩ := (Charset.replacing_lawful.decode_encode_iff [0xD800]).mp h
  have hback := textOf_utf16 text
  rw [← htext] at hback
  rw [← hback] at htext
  revert htext
  decide

end RawUtil

end Safrn.Java
