import Prsqlite.Payload

/-!
# Reading the Columns of a Row

`Rows::next_row` hands out a row as a `RowData`: its rowid and payload, its record header,
and a buffer that holds the contents of its columns. `parse_record_header` gives the
serial type and the offset in the payload of each column; the contents start with the
first column (`content_offset`) and end with the last, `content_size` bytes later. When the
local payload holds them all, the row reads its columns there (`use_local_buffer`);
otherwise `next_row` `load`s them from `content_offset` on into `tmp_buf`.
`RowData::get_column_value` parses a column from the chosen buffer, at its offset less
`content_offset`.

The record codec is not part of the source: `parse_record_header`,
`SerialType::content_size` and `SerialType::parse` enter as the parameter `RecordCodec`.
The one law of it used here, that a value is parsed from the contents of its serial type
alone, is `RecordCodec.ParsesContents`. `rowData` is the part of `next_row` that the module
`Select` leaves to its parameter `parseRow`.

What a column should read is its value in the logical payload (`columnValue`). However the
payload is split into a local part and an overflow chain, the row `next_row` builds reads
every column so, as long as its contents start before the end of the payload or lie in
the local part. A row whose columns all have empty contents has them start at the end of
its payload; when its local part is shorter than its header, `next_row` still calls
`load` at that offset, which `load` refuses.

## Main results

* `rowData_reads_logical_payload`: the row `next_row` builds reads every column as the
  logical payload gives it, on every split of the payload.
* `rowData_emptyContents_refused`: columns of empty contents at the end of the payload,
  with a local part shorter than the payload, are refused with "offset exceeds payload size".
* `nullRow_split_refused`: the record of `479` `NULL` columns, split as a cell on `512`-byte
  pages splits it, `39` bytes local, is refused so, and read whole it is a row.
-/

namespace Prsqlite

/-! ### The record codec -/

/-- The record codec, through what `next_row` and `get_column_value` use of it, on serial
types `ST` and values `Value`: `parse_record_header`, which gives the serial type and the
offset of each column, `SerialType::content_size`, `SerialType::parse`, and
`Value::Integer`. -/
structure RecordCodec (ST Value : Type) where
  parseRecordHeader : Pager → PayloadInfo → Except Error (List (ST × ℕ))
  contentSize : ST → ℕ
  parse : ST → List UInt8 → Except Error (Option Value)
  integer : ℤ → Value

variable {ST Value : Type}

/-- `SerialType::parse` reads a value from the contents of its serial type, and from
nothing after them. -/
def RecordCodec.ParsesContents (codec : RecordCodec ST Value) : Prop :=
  ∀ st (buf : List UInt8), codec.contentSize st ≤ buf.length →
    codec.parse st buf = codec.parse st (buf.take (codec.contentSize st))

/-! ### Buffers -/

/-- `Vec::resize(n, 0)`: cut to `n` bytes, or filled up to `n` with zeros. -/
def resize (buf : List UInt8) (n : ℕ) : List UInt8 :=
  buf.take n ++ List.replicate (n - buf.length) 0

@[simp] theorem length_resize (buf : List UInt8) (n : ℕ) : (resize buf n).length = n := by
  simp only [resize, List.length_append, List.length_take, List.length_replicate]
  omega

/-- `&buf[start..]`, which panics when `start` is past the end. -/
def sliceFrom (buf : List UInt8) (start : ℕ) : Except Error (List UInt8) :=
  if start ≤ buf.length then .ok (buf.drop start)
  else .error (.panic ("range start index " ++ toString start ++
    " out of range for slice of length " ++ toString buf.length))

@[simp] theorem drop_resize (buf : List UInt8) (n : ℕ) : (resize buf n).drop n = [] :=
  List.drop_eq_nil_of_le (length_resize buf n).le

/-- A slice from within the buffer is its suffix. -/
theorem sliceFrom_of_le {buf : List UInt8} {start : ℕ} (h : start ≤ buf.length) :
    sliceFrom buf start = .ok (buf.drop start) := if_pos h

/-- Reading `m` bytes from `k` on depends only on the first `n ≥ k + m` bytes. -/
theorem take_drop_take {α : Type} (l : List α) {k m n : ℕ} (h : k + m ≤ n) :
    ((l.take n).drop k).take m = (l.drop k).take m := by
  rw [List.drop_take, List.take_take, min_eq_left (by omega)]

/-! ### `next_row` and `get_column_value` -/

/-- `RowData`: the rowid and payload of a row, its record header, where the contents of its
columns start, and whether they are read from the local payload or from `tmp_buf`. -/
structure RowData (ST : Type) where
  rowid : ℤ
  payload : PayloadInfo
  headers : List (ST × ℕ)
  contentOffset : ℕ
  useLocalBuffer : Bool
  tmpBuf : List UInt8

/-- `ColumnNumber`: a column of the table by its index, or the rowid. -/
inductive ColumnNumber
  | column (idx : ℕ)
  | rowId

section Row

variable (codec : RecordCodec ST Value)

/-- Where the contents of the columns `first :: rest` end: at the end of the last one. -/
def contentEnd (first : ST × ℕ) (rest : List (ST × ℕ)) : ℕ :=
  ((first :: rest).getLast (List.cons_ne_nil _ _)).2 +
    codec.contentSize ((first :: rest).getLast (List.cons_ne_nil _ _)).1

variable (pager : Pager) (fuel : ℕ)

/-- The loop body of `Rows::next_row` from `parse_record_header` to the choice of the
buffer, on the row `(rowid, payload)` and the `tmp_buf` of the call. -/
def rowData (rowid : ℤ) (payload : PayloadInfo) (tmpBuf : List UInt8) :
    Except Error (RowData ST) := do
  match ← codec.parseRecordHeader pager payload with
  | [] => throw (.bail "empty header payload")
  | first :: rest =>
    let contentOffset := first.2
    if contentEnd codec first rest < contentOffset then
      throw (.panic "attempt to subtract with overflow")
    let contentSize := contentEnd codec first rest - contentOffset
    if ¬ contentOffset + contentSize ≤ payload.payloadSize then
      throw (.panic
        "assertion failed: content_offset + content_size <= payload.size().get() as usize")
    if contentOffset + contentSize ≤ payload.localPayload.length then
      return ⟨rowid, payload, first :: rest, contentOffset, true, tmpBuf⟩
    match BtreePayload.load pager payload contentOffset fuel (resize tmpBuf contentSize) with
    | .error e _ => throw e
    | .ok n tmpBuf =>
      if n ≠ contentSize then throw (.bail "payload does not have enough size")
      return ⟨rowid, payload, first :: rest, contentOffset, false, tmpBuf⟩

/-- The buffer `get_column_value` reads the contents from. -/
def RowData.contentsBuffer (data : RowData ST) : Except Error (List UInt8) :=
  if data.useLocalBuffer then sliceFrom data.payload.localPayload data.contentOffset
  else pure data.tmpBuf

/-- `RowData::get_column_value`. -/
def RowData.getColumnValue (data : RowData ST) : ColumnNumber → Except Error (Option Value)
  | .column idx =>
    match data.headers[idx]? with
    | some (serialType, offset) => do
      let contentsBuffer ← data.contentsBuffer
      if offset < data.contentOffset then throw (.panic "attempt to subtract with overflow")
      let buf ← sliceFrom contentsBuffer (offset - data.contentOffset)
      (codec.parse serialType buf).mapError (.context "parse value")
    | none => pure none
  | .rowId => pure (some (codec.integer data.rowid))

/-- What column `col` of the row `rowid` with the record header `headers` holds in the
logical payload `L`: the value of each column is parsed from its contents there. -/
def columnValue (L : List UInt8) (rowid : ℤ) (headers : List (ST × ℕ)) :
    ColumnNumber → Except Error (Option Value)
  | .column idx =>
    match headers[idx]? with
    | some (serialType, offset) =>
      (codec.parse serialType ((L.drop offset).take (codec.contentSize serialType))).mapError
        (.context "parse value")
    | none => pure none
  | .rowId => pure (some (codec.integer rowid))

/-- The columns of `first :: rest` lie within the contents: each starts at or after the first
and ends at or before the end of the last. So do those `parse_record_header` gives, each
starting where the one before it ends. -/
def ColumnsWithin (first : ST × ℕ) (rest : List (ST × ℕ)) : Prop :=
  ∀ c ∈ first :: rest, first.2 ≤ c.2 ∧ c.2 + codec.contentSize c.1 ≤ contentEnd codec first rest

/-- Whether the columns lie within the contents can be computed. -/
instance (first : ST × ℕ) (rest : List (ST × ℕ)) : Decidable (ColumnsWithin codec first rest) :=
  inferInstanceAs (Decidable (∀ c ∈ first :: rest, _))

end Row

/-! ### The contents a row reads -/

section Reads

variable {codec : RecordCodec ST Value} {pager : Pager} {fuel : ℕ} {rowid : ℤ}
  {payload : PayloadInfo} {tmpBuf : List UInt8} {first : ST × ℕ} {rest : List (ST × ℕ)}

/-- Contents that lie in the local payload are read there. -/
theorem rowData_local (hh : codec.parseRecordHeader pager payload = .ok (first :: rest))
    (hle : first.2 ≤ contentEnd codec first rest)
    (hend : contentEnd codec first rest ≤ payload.payloadSize)
    (hl : contentEnd codec first rest ≤ payload.localPayload.length) :
    rowData codec pager fuel rowid payload tmpBuf =
      .ok ⟨rowid, payload, first :: rest, first.2, true, tmpBuf⟩ := by
  have h₁ : ¬ contentEnd codec first rest < first.2 := by omega
  have h₂ : ¬ payload.payloadSize < first.2 + (contentEnd codec first rest - first.2) := by omega
  have h₃ : first.2 + (contentEnd codec first rest - first.2) ≤ payload.localPayload.length := by
    omega
  simp [rowData, hh, h₁, h₂, h₃]

/-- Contents that do not lie in the local payload, and start before its end, are loaded
into `tmp_buf`: the bytes of the logical payload from `content_offset` to the end of the
contents. -/
theorem rowData_load {chunks : List (List UInt8)}
    (hc : OverflowChain pager payload.overflow chunks)
    (hsize : payload.payloadSize = payload.localPayload.length + chunks.flatten.length)
    (hfuel : chunks.length < fuel)
    (hh : codec.parseRecordHeader pager payload = .ok (first :: rest))
    (hle : first.2 ≤ contentEnd codec first rest)
    (hend : contentEnd codec first rest ≤ payload.payloadSize)
    (hl : ¬ contentEnd codec first rest ≤ payload.localPayload.length)
    (hco : first.2 < payload.payloadSize) :
    rowData codec pager fuel rowid payload tmpBuf =
      .ok ⟨rowid, payload, first :: rest, first.2, false,
        ((payload.localPayload ++ chunks.flatten).drop first.2).take
          (contentEnd codec first rest - first.2)⟩ := by
  have h₁ : ¬ contentEnd codec first rest < first.2 := by omega
  have h₂ : ¬ payload.payloadSize < first.2 + (contentEnd codec first rest - first.2) := by omega
  have h₃ : ¬ first.2 + (contentEnd codec first rest - first.2) ≤
      payload.localPayload.length := by omega
  have hn : min (contentEnd codec first rest - first.2) (payload.payloadSize - first.2) =
      contentEnd codec first rest - first.2 := min_eq_left (by omega)
  have hload := BtreePayload.load_eq_ok hc hsize hfuel hco
    (resize tmpBuf (contentEnd codec first rest - first.2))
  rw [length_resize, hn] at hload
  simp [rowData, hh, h₁, h₂, h₃, hload]

/-- A row whose contents buffer holds the logical payload `L` from `content_offset` to the
end `e` of the contents reads every column of its header, if they lie within the
contents, as `L` gives it. -/
theorem getColumnValue_of_contents (hparse : codec.ParsesContents) {data : RowData ST}
    {B L : List UInt8} {e : ℕ} (hB : data.contentsBuffer = .ok B)
    (hBL : B.take (e - data.contentOffset) =
      (L.drop data.contentOffset).take (e - data.contentOffset))
    (heB : e - data.contentOffset ≤ B.length)
    (hw : ∀ c ∈ data.headers, data.contentOffset ≤ c.2 ∧ c.2 + codec.contentSize c.1 ≤ e) :
    ∀ col, data.getColumnValue codec col = columnValue codec L data.rowid data.headers col
  | .rowId => rfl
  | .column idx => by
    rcases hidx : data.headers[idx]? with _ | ⟨st, o⟩
    · simp [RowData.getColumnValue, columnValue, hidx]
    obtain ⟨ho, hoe⟩ : data.contentOffset ≤ o ∧ o + codec.contentSize st ≤ e :=
      hw _ (List.mem_iff_getElem?.2 ⟨idx, hidx⟩)
    have hread : ((B.drop (o - data.contentOffset)).take (codec.contentSize st)) =
        (L.drop o).take (codec.contentSize st) := by
      rw [← take_drop_take B (show o - data.contentOffset + codec.contentSize st ≤
        e - data.contentOffset by omega), hBL, take_drop_take _ (by omega), List.drop_drop,
        Nat.add_sub_cancel' ho]
    have hlen : codec.contentSize st ≤ (B.drop (o - data.contentOffset)).length := by
      rw [List.length_drop]
      omega
    simp [RowData.getColumnValue, columnValue, hidx, hB, Nat.not_lt.2 ho,
      sliceFrom_of_le (show o - data.contentOffset ≤ B.length by omega), hparse st _ hlen, hread]

/-- **The row `next_row` builds reads the logical payload.** Split a payload any way into a
local part and an overflow chain, and let its record header list columns that lie within
the contents, which end within the payload and start before its end or lie in the local
part. Then `next_row` builds the row, and `get_column_value` reads every column as the
logical payload gives it: the same on every split, and the same as when the whole payload
is local. -/
theorem rowData_reads_logical_payload (hparse : codec.ParsesContents)
    {chunks : List (List UInt8)} (hc : OverflowChain pager payload.overflow chunks)
    (hsize : payload.payloadSize = payload.localPayload.length + chunks.flatten.length)
    (hfuel : chunks.length < fuel)
    (hh : codec.parseRecordHeader pager payload = .ok (first :: rest))
    (hw : ColumnsWithin codec first rest)
    (hend : contentEnd codec first rest ≤ payload.payloadSize)
    (hco : first.2 < payload.payloadSize ∨
      contentEnd codec first rest ≤ payload.localPayload.length) :
    ∃ data, rowData codec pager fuel rowid payload tmpBuf = .ok data ∧
      ∀ col, data.getColumnValue codec col =
        columnValue codec (payload.localPayload ++ chunks.flatten) rowid (first :: rest) col := by
  have hle : first.2 ≤ contentEnd codec first rest :=
    le_trans (Nat.le_add_right _ _) (hw first (List.mem_cons_self _ _)).2
  by_cases hl : contentEnd codec first rest ≤ payload.localPayload.length
  · -- the contents lie in the local part
    refine ⟨_, rowData_local hh hle hend hl, getColumnValue_of_contents hparse
      (e := contentEnd codec first rest)
      (sliceFrom_of_le (show first.2 ≤ payload.localPayload.length by omega)) ?_ ?_ hw⟩
    · show _ = ((payload.localPayload ++ chunks.flatten).drop first.2).take _
      rw [List.drop_append_of_le_length (by omega),
        List.take_append_of_le_length (by simp only [List.length_drop]; omega)]
    · show _ ≤ (payload.localPayload.drop first.2).length
      simp only [List.length_drop]
      omega
  · -- they are loaded
    refine ⟨_, rowData_load hc hsize hfuel hh hle hend hl (hco.resolve_right hl),
      getColumnValue_of_contents hparse (e := contentEnd codec first rest) rfl ?_ ?_ hw⟩
    · rw [List.take_take, min_self]
    · simp only [List.length_take, List.length_drop, List.length_append]
      omega

end Reads

/-- A codec whose serial type `n` is `n` raw bytes, and whose header parser reads one such
column, of one byte, at offset `1`. -/
def bytesCodec : RecordCodec ℕ (List UInt8) :=
  ⟨fun _ _ => .ok [(1, 1)], id, fun n buf => .ok (some (buf.take n)), fun _ => []⟩

/-- A file whose page 1 is an overflow page that holds the byte `0` and ends its chain. -/
def zeroOverflowPage : Pager where
  numPages := 1
  page _ := ⟨.tableLeaf, 0, 512, 0, 0, []⟩
  overflowPage _ := some ([0], none)
  usableSize := 512

/-- The payload `[2, 0]` split after its first byte, read with `bytesCodec`: its one column
is loaded from the overflow page. -/
theorem bytesCodec_reads_split :
    ∃ data, rowData bytesCodec zeroOverflowPage 2 7 ⟨2, [2], some 1⟩ [] = .ok data ∧
      ∀ col, data.getColumnValue bytesCodec col =
        columnValue bytesCodec ([2] ++ [[0]].flatten) 7 [(1, 1)] col :=
  rowData_reads_logical_payload
    (fun n buf _ => by simp only [bytesCodec, id, List.take_take, min_self])
    (.cons (by decide) rfl (.nil none)) rfl (by decide) rfl (by decide) (by decide)
    (.inl (by decide))

/-! ### A row of empty contents -/

section EmptyContents

variable {codec : RecordCodec ST Value} {pager : Pager} {fuel : ℕ} {rowid : ℤ}
  {payload : PayloadInfo} {tmpBuf : List UInt8}

/-- Where the contents of columns of one kind end. -/
theorem contentEnd_replicate (c : ST × ℕ) (n : ℕ) :
    contentEnd codec c (List.replicate n c) = c.2 + codec.contentSize c.1 := by
  simp only [contentEnd, ← List.replicate_succ, List.getLast_replicate_succ]

/-- Columns whose contents are empty and start at the end of the payload, with a local part
shorter than the payload: `next_row` does not use the local payload, and `load`s from
`content_offset`, the payload's size, which `load` refuses. -/
theorem rowData_emptyContents_refused {first : ST × ℕ} {rest : List (ST × ℕ)}
    (hh : codec.parseRecordHeader pager payload = .ok (first :: rest))
    (hend : contentEnd codec first rest = payload.payloadSize)
    (hfirst : first.2 = payload.payloadSize)
    (hl : payload.localPayload.length < payload.payloadSize) :
    rowData codec pager fuel rowid payload tmpBuf =
      .error (.bail "offset exceeds payload size") := by
  simp [rowData, hh, hend, hfirst, Nat.not_le.2 hl, BtreePayload.load_of_le le_rfl]

end EmptyContents

/-- The record of `479` `NULL` columns: its header size `481` as the varint `[0x83, 0x61]`,
then `479` serial types `0`. All of its `481` bytes are header; the contents of its columns
are empty and start at its end. -/
def nullRecord : List UInt8 := [0x83, 0x61] ++ List.replicate 479 0

/-- `nullRecord` has `481` bytes. -/
theorem length_nullRecord : nullRecord.length = 481 := by
  rw [nullRecord, List.length_append, List.length_replicate]
  rfl

/-- A file of `512`-byte pages whose page `2` is an overflow page that holds the `442`
bytes of `nullRecord` after its first `39` and ends its chain. -/
def nullOverflowPage : Pager where
  numPages := 2
  page _ := ⟨.tableLeaf, 0, 512, 0, 0, []⟩
  overflowPage _ := some (nullRecord.drop 39, none)
  usableSize := 512

/-- On `512`-byte pages a cell keeps `39` bytes of `nullRecord`, less than its header, and
the rest goes to an overflow page. On that split `next_row` does not use the local payload,
and `load`s from offset `481`, the payload's size, which `load` refuses. Whole on the page,
the row is built and each of its columns reads as its empty contents parse. -/
theorem nullRow_split_refused (codec : RecordCodec ST Value) {st : ST}
    (hst : codec.contentSize st = 0)
    (hh : codec.parseRecordHeader nullOverflowPage ⟨481, nullRecord.take 39, some 2⟩ =
      .ok (List.replicate 479 (st, 481)))
    (hh' : codec.parseRecordHeader nullOverflowPage ⟨481, nullRecord, none⟩ =
      .ok (List.replicate 479 (st, 481))) :
    localSize nullOverflowPage.usableSize nullRecord.length = 39 ∧
    OverflowChain nullOverflowPage (some 2) [nullRecord.drop 39] ∧
    rowData codec nullOverflowPage 2 1 ⟨481, nullRecord.take 39, some 2⟩ [] =
      .error (.bail "offset exceeds payload size") ∧
    ∃ data, rowData codec nullOverflowPage 2 1 ⟨481, nullRecord, none⟩ [] = .ok data ∧
      ∀ i < 479, data.getColumnValue codec (.column i) =
        (codec.parse st []).mapError (.context "parse value") := by
  have hend : contentEnd codec (st, 481) (List.replicate 478 (st, 481)) = 481 := by
    rw [contentEnd_replicate, hst]
  have hlocal : (nullRecord.take 39).length < 481 := by
    rw [List.length_take, length_nullRecord]; decide
  -- whole, the contents buffer is the empty rest of the record after its header
  have hbuf : sliceFrom nullRecord 481 = .ok [] := by
    rw [sliceFrom_of_le length_nullRecord.ge, List.drop_eq_nil_of_le length_nullRecord.le]
  refine ⟨by rw [length_nullRecord]; decide, .cons (by decide) rfl (.nil none),
    rowData_emptyContents_refused hh hend rfl hlocal, _,
    rowData_local hh' (by rw [hend]) (by rw [hend]) (by rw [hend, length_nullRecord]),
    fun i hi => ?_⟩
  show RowData.getColumnValue codec
    ⟨1, ⟨481, nullRecord, none⟩, List.replicate 479 (st, 481), 481, true, []⟩ (.column i) = _
  simp only [RowData.getColumnValue, List.getElem?_replicate, if_pos hi, RowData.contentsBuffer,
    if_true, hbuf, lt_irrefl, if_false, Nat.sub_self, sliceFrom_of_le (Nat.zero_le _)]
  rfl

/-- A codec of the one serial type `0`, of empty contents, whose header parser reads `479`
such columns at offset `481`, and whose values are integers. -/
def nullCodec : RecordCodec ℕ ℤ :=
  ⟨fun _ _ => .ok (List.replicate 479 (0, 481)), fun _ => 0, fun _ _ => .ok none, id⟩

/-- With `nullCodec`. -/
theorem nullCodec_split_refused :
    localSize nullOverflowPage.usableSize nullRecord.length = 39 ∧
    OverflowChain nullOverflowPage (some 2) [nullRecord.drop 39] ∧
    rowData nullCodec nullOverflowPage 2 1 ⟨481, nullRecord.take 39, some 2⟩ [] =
      .error (.bail "offset exceeds payload size") ∧
    ∃ data, rowData nullCodec nullOverflowPage 2 1 ⟨481, nullRecord, none⟩ [] = .ok data ∧
      ∀ i < 479, data.getColumnValue nullCodec (.column i) = .ok none :=
  nullRow_split_refused nullCodec rfl rfl rfl

end Prsqlite
