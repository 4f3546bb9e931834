import Mathlib.Algebra.Order.Ring.Int
import Mathlib.Data.List.MinMax
import Mathlib.Data.List.Sort
import Prsqlite.Insert
import Prsqlite.Transaction

/-!
# Executing an `INSERT`

`InsertStatement::execute` starts a write transaction, opens a cursor on the table's root
page and, record by record, fixes the rowid (the record's own, or one past the key of the
last row `move_to_last` finds), checks it against the table with `table_move_to`, writes
the row with the cursor's `insert` and adds it to every index. The pager is committed at
the end; on an error the write transaction is dropped, which rolls the pager back.

What `execute` calls outside `cursor.rs` is left abstract in `InsertEnv`: the evaluation of
the record's expressions and their affinities, the payload the column values encode to,
and the insertion into an index tree. `lib.rs` calls `table_insert`, which `cursor.rs`
does not have; the row is written by its `insert`, the payload passed as bytes. The commit
is modelled as succeeding.

`insertRecord` is one turn of the loop. `insertRecord_spec` says what a turn does to a
table tree, and `insertRecords_spec` extends it to the whole batch by induction on the
records; the index insertions are assumed to write only pages outside the table's tree.

## Main results

* `insertRecord_spec`: a turn that succeeds adds exactly its record's row, under the
  record's rowid or one past the largest, and keeps the table a table tree.
* `insertRecords_spec`: the loop adds one row per record, each rowid fixed on the table
  with the rows before it.
* `execute_inserts_rows`: an `execute` that returns `Ok(n)` has added one row per record
  and `n` is their number; and once the records before one with a rowid the table holds
  have been inserted, `execute` fails with `UniqueConstraintViolation`.
* `InsertReachable.tableTree`: along any run of `INSERT`s, whatever each one returns, the
  table stays a table tree on the same pages.
-/

namespace Prsqlite

/-! ### Statements -/

/-- `lib::Error`, the variants `execute` returns; a panic of the code is `panic`. -/
inductive StatementError
  | cursor (e : Error)
  | uniqueConstraintViolation
  | dataTypeMismatch
  | other (msg : String)
  | panic (msg : String)
  deriving DecidableEq, Repr

/-- `?` on a result of the cursor: an error becomes `Error::Cursor`, a panic stays one. -/
def liftCursor : Error → StatementError
  | .panic msg => .panic msg
  | e => .cursor e

/-- `MAX_ROWID`, `i64::MAX`. -/
def maxRowid : ℤ := 2 ^ 63 - 1

/-- `InsertRecord`: the rowid expression, when the statement names the rowid column, and
the column expressions with their affinities. -/
structure InsertRecord (Expr Cols : Type) where
  rowid : Option Expr
  columns : Cols

/-- `InsertStatement`: the table's root page, the records and the indexes of the table. -/
structure InsertStatement (Expr Cols Idx : Type) where
  tablePageId : PageId
  records : List (InsertRecord Expr Cols)
  indexes : List Idx

/-- What `execute` calls outside `cursor.rs`: `Expression::execute` with no row, the numeric
affinity of a rowid value (`some` for a `Value::Integer`), the payload of the column
values after their affinities (`RecordPayload::new`), and the insertion of a row into an
index (`BtreeCursor::new` on its root, then `index_insert`). -/
structure InsertEnv (Expr Value Cols Idx : Type) where
  evaluate : Expr → Except StatementError (Option Value)
  integerOf : Value → Option ℤ
  payloadOf : Cols → Except StatementError (List UInt8)
  indexInsert : Idx → ℤ → Cols → Pager → Except StatementError Pager

/-- A method of the cursor run on `cursor`; on an error the cursor is dropped. -/
def runCursor {α : Type} (x : CursorM α) (cursor : BtreeCursor) :
    Except StatementError (α × BtreeCursor) :=
  match x cursor with
  | .ok a cursor => .ok (a, cursor)
  | .error e _ => .error (liftCursor e)

section Execution

variable {Expr Value Cols Idx : Type} (env : InsertEnv Expr Value Cols Idx) (fuel : ℕ)

/-- The rowid a record names: none without a rowid expression or when it is `NULL`, else
its value after numeric affinity, which has to be an integer. -/
def rowidOf (record : InsertRecord Expr Cols) : Except StatementError (Option ℤ) :=
  match record.rowid with
  | none => pure none
  | some expr => do
    match ← env.evaluate expr with
    | none => pure none
    | some value =>
      match env.integerOf value with
      | some rowid => pure (some rowid)
      | none => throw .dataTypeMismatch

/-- The rowid of `record` on the table under `cursor`: its own, or one past the key of the
last row, `1` on an empty table. -/
def rowidFor (pager : Pager) (record : InsertRecord Expr Cols) (cursor : BtreeCursor) :
    Except StatementError (ℤ × BtreeCursor) := do
  match ← rowidOf env record with
  | some rowid => pure (rowid, cursor)
  | none =>
    let (_, cursor) ← runCursor (moveToLast pager fuel) cursor
    let lastRowid := (← (getTableKey pager cursor).mapError liftCursor).getD 0
    if lastRowid = maxRowid then throw (.panic "not yet implemented: find unused rowid randomly")
    pure (lastRowid + 1, cursor)

/-- One turn of the loop of `execute`: the rowid, the conflict check, the row, and its
entries in the indexes. -/
def insertRecord (indexes : List Idx) (record : InsertRecord Expr Cols) (cursor : BtreeCursor)
    (pager : Pager) : Except StatementError (BtreeCursor × Pager) := do
  let (rowid, cursor) ← rowidFor env fuel pager record cursor
  let (currentRowid, cursor) ← runCursor (tableMoveTo pager fuel rowid) cursor
  if currentRowid = some rowid then throw .uniqueConstraintViolation
  let payload ← env.payloadOf record.columns
  let (pager, cursor) ← runCursor (insert pager fuel rowid payload) cursor
  let pager ← indexes.foldlM (fun pager index => env.indexInsert index rowid record.columns pager)
    pager
  pure (cursor, pager)

/-- The loop of `execute` over `records`, counting the rows in `n`. -/
def insertRecords (indexes : List Idx) :
    List (InsertRecord Expr Cols) → BtreeCursor → Pager → ℕ →
      Except StatementError (BtreeCursor × Pager × ℕ)
  | [], cursor, pager, n => pure (cursor, pager, n)
  | record :: records, cursor, pager, n => do
    let (cursor, pager) ← insertRecord env fuel indexes record cursor pager
    insertRecords indexes records cursor pager (n + 1)

/-- The body of `execute` inside the write transaction, on a connection whose `ref_count`
is `refCount` and whose pager holds `pager`. -/
def InsertStatement.run (stmt : InsertStatement Expr Cols Idx) (refCount : ℤ) (pager : Pager) :
    Except StatementError (BtreeCursor × Pager × ℕ) := do
  let _ ← (Connection.startWrite refCount).mapError .other
  let cursor ← (BtreeCursor.new pager stmt.tablePageId).mapError liftCursor
  insertRecords env fuel stmt.indexes stmt.records cursor pager 0

/-- `InsertStatement::execute`: the number of rows and the pager afterwards, committed on
success and rolled back (`abort` in the drop of the write transaction) on an error. -/
def InsertStatement.execute (stmt : InsertStatement Expr Cols Idx) (refCount : ℤ)
    (pager : Pager) : Except StatementError ℕ × Pager :=
  match stmt.run env fuel refCount pager with
  | .ok (_, pager', n) => (.ok n, pager')
  | .error e => (.error e, pager)

end Execution

/-! ### Rowids -/

/-- One more than the largest of `keys`, or `1` when there is none. -/
def nextRowid (keys : List ℤ) : ℤ := keys.maximum.unbot' 0 + 1

/-- The rowid a record without one gets depends only on the set of rowids present. -/
theorem nextRowid_perm {keys keys' : List ℤ} (h : keys.Perm keys') :
    nextRowid keys = nextRowid keys' := by
  have hm : keys.maximum = keys'.maximum :=
    le_antisymm (List.maximum_le_of_forall_le fun _ ha => List.le_maximum_of_mem' (h.subset ha))
      (List.maximum_le_of_forall_le fun _ ha => List.le_maximum_of_mem' (h.symm.subset ha))
  rw [nextRowid, hm, nextRowid]

/-- On the rowids of a table, in order, the last is the largest. -/
theorem nextRowid_of_sorted {keys : List ℤ} (hs : keys.Sorted (· < ·)) :
    nextRowid keys = keys.getLast?.getD 0 + 1 := by
  rcases List.eq_nil_or_concat keys with rfl | ⟨L, b, rfl⟩
  · simp [nextRowid]
  · rw [List.concat_eq_append] at hs ⊢
    have hb : ∀ a ∈ L, (a : WithBot ℤ) ≤ b := fun a ha => WithBot.coe_le_coe.2
      ((List.pairwise_append.1 hs).2.2 a ha b (List.mem_singleton_self b)).le
    simp [nextRowid, List.maximum_concat, max_eq_right (List.maximum_le_of_forall_le hb)]

section Rows

variable {Expr Value Cols Idx : Type} (env : InsertEnv Expr Value Cols Idx)

/-- The rowid `record` gets on a table whose rowids are `keys`: its own, or one past the
largest. -/
def AssignedRowid (record : InsertRecord Expr Cols) (keys : List ℤ) (rowid : ℤ) : Prop :=
  rowidOf env record = .ok (some rowid) ∨
    rowidOf env record = .ok none ∧ rowid = nextRowid keys

/-- The row `record` adds to a table whose rowids are `keys`, in a file of `usableSize`
usable bytes: the cell of its rowid and of the payload of its columns as the decoder reads
back what `insert` writes (`leafCell`), the payload itself when it is at most
`usable_size - 35` bytes, and a prefix of it otherwise. -/
def InsertedRow (usableSize : ℕ) (record : InsertRecord Expr Cols) (keys : List ℤ) (row : Cell) :
    Prop :=
  AssignedRowid env record keys row.key ∧
    ∃ payload, env.payloadOf record.columns = .ok payload ∧
      row = leafCell usableSize row.key payload

/-- The rows `records` add, one each, to a table whose rowids are `keys`, each rowid fixed
on the table with the rows before it. -/
inductive InsertedRows (usableSize : ℕ) :
    List ℤ → List (InsertRecord Expr Cols) → List Cell → Prop
  | nil (keys : List ℤ) : InsertedRows usableSize keys [] []
  | cons {keys : List ℤ} {record : InsertRecord Expr Cols} {records : List (InsertRecord Expr Cols)}
      {row : Cell} {rows : List Cell} :
      InsertedRow env usableSize record keys row →
      InsertedRows usableSize (keys ++ [row.key]) records rows →
      InsertedRows usableSize keys (record :: records) (row :: rows)

variable {env} {usableSize : ℕ} {keys keys' : List ℤ} {record : InsertRecord Expr Cols}

/-- The rows only depend on the set of rowids before them. -/
theorem InsertedRow.perm {row : Cell} (h : keys.Perm keys')
    (hr : InsertedRow env usableSize record keys row) :
    InsertedRow env usableSize record keys' row :=
  ⟨hr.1.imp_right fun ⟨hn, hk⟩ => ⟨hn, hk.trans (nextRowid_perm h)⟩, hr.2⟩

/-- So do the rows a batch adds. -/
theorem InsertedRows.perm {records : List (InsertRecord Expr Cols)} {rows : List Cell}
    (hr : InsertedRows env usableSize keys records rows) : ∀ {keys'}, keys.Perm keys' →
      InsertedRows env usableSize keys' records rows := by
  induction hr with
  | nil => exact fun _ => .nil _
  | cons hrow _ ih => exact fun h => .cons (hrow.perm h) (ih (h.append_right _))

end Rows

/-! ### One record -/

/-- A cursor method run from a statement succeeds exactly when it does on the cursor. -/
theorem runCursor_eq_ok {α : Type} {x : CursorM α} {cursor cursor' : BtreeCursor} {a : α} :
    runCursor x cursor = .ok (a, cursor') ↔ x cursor = .ok a cursor' := by
  cases h : x cursor <;> simp [runCursor, h]

/-- Index insertions that keep the pages `T` keep them over any list of indexes. -/
theorem foldlM_agreesOn {Idx : Type} {f : Idx → Pager → Except StatementError Pager}
    {T : List PageId} (hf : ∀ index p p', f index p = .ok p' → p.AgreesOn p' T) :
    ∀ (indexes : List Idx) (p p' : Pager),
      indexes.foldlM (fun p index => f index p) p = .ok p' → p.AgreesOn p' T
  | [], p, p', h => by
    obtain rfl : p = p' := Except.ok.inj h
    exact Pager.AgreesOn.refl _
  | index :: indexes, p, p', h => by
    obtain ⟨p₁, h₁, h⟩ := except_bind_eq_ok.1 h
    exact (hf index p p₁ h₁).trans (foldlM_agreesOn hf indexes p₁ p' h)

section Spec

variable {Expr Value Cols Idx : Type} {env : InsertEnv Expr Value Cols Idx} {fuel H : ℕ}
  {root : PageId} {pager : Pager} {s : BtreeCursor}

/-- `rowidFor` keeps the root frame and gives the record its rowid. -/
theorem rowidFor_spec (ht : TableTree pager H root) (hr : RootOk pager root s) (hfuel : H ≤ fuel)
    {record : InsertRecord Expr Cols} {rowid : ℤ} {s' : BtreeCursor}
    (h : rowidFor env fuel pager record s = .ok (rowid, s')) :
    RootOk pager root s' ∧
      AssignedRowid env record ((pager.cellsInOrder false H root).map Cell.key) rowid := by
  obtain ⟨r, hr₀, h⟩ := except_bind_eq_ok.1 h
  cases r with
  | some v =>
    obtain ⟨rfl, rfl⟩ := Prod.mk.inj (Except.ok.inj h)
    exact ⟨hr, .inl hr₀⟩
  | none =>
    obtain ⟨s₁, hrun, hr₁, hkey⟩ := moveToLast_spec ht.subtree ht.rootCells hr hfuel
    simp only [runCursor_eq_ok.2 hrun, except_ok_bind, hkey, except_mapError_ok] at h
    split_ifs at h
    · cases h
    · obtain ⟨rfl, rfl⟩ := Prod.mk.inj (Except.ok.inj h)
      exact ⟨hr₁, .inr ⟨hr₀,
        (nextRowid_of_sorted (Pager.sorted_cellsInOrder ht.subtree ht.ordered)).symm⟩⟩

/-- **One record.** A turn of the loop that succeeds on a table tree, with index insertions
that keep the table's pages, adds exactly the row of its record and keeps the table a table
tree on the same pages, and the root frame. -/
theorem insertRecord_spec (ht : TableTree pager H root) (hr : RootOk pager root s)
    (hfuel : H ≤ fuel)
    (hidx : ∀ index rowid cols (p p' : Pager), env.indexInsert index rowid cols p = .ok p' →
      p.AgreesOn p' (pager.treePages H root))
    {indexes : List Idx} {record : InsertRecord Expr Cols} {s' : BtreeCursor} {pager' : Pager}
    (h : insertRecord env fuel indexes record s pager = .ok (s', pager')) :
    TableTree pager' H root ∧ RootOk pager' root s' ∧
      pager'.treePages H root = pager.treePages H root ∧ pager'.usableSize = pager.usableSize ∧
      ∃ row, InsertedRow env pager.usableSize record ((pager.cellsInOrder false H root).map Cell.key)
          row ∧
        (pager'.cellsInOrder false H root).Perm (pager.cellsInOrder false H root ++ [row]) := by
  obtain ⟨⟨rowid, s₁⟩, h₁, h⟩ := except_bind_eq_ok.1 h
  obtain ⟨hr₁, hrowid⟩ := rowidFor_spec ht hr hfuel h₁
  obtain ⟨s₂, hrun, -, -, hr₂, -⟩ := tableMoveTo_spec rowid ht.subtree ht.ordered hr₁ hfuel
  simp only [runCursor_eq_ok.2 hrun, except_ok_bind] at h
  split_ifs at h with hconf
  · cases h
  rw [pure_bind] at h
  have hk := mt (tableMoveTo_eq_some_iff ht.subtree ht.ordered hr₁ hfuel hrun).2 hconf
  obtain ⟨payload, hpay, h⟩ := except_bind_eq_ok.1 h
  obtain ⟨⟨p₁, s₃⟩, h₃, h⟩ := except_bind_eq_ok.1 h
  obtain ⟨ht₁, hr₃, hpages₁, hsize₁, hperm⟩ := insert_spec ht hr₂ hfuel hk (runCursor_eq_ok.1 h₃)
  obtain ⟨p₂, h₄, h⟩ := except_bind_eq_ok.1 h
  obtain ⟨rfl, rfl⟩ := Prod.mk.inj (Except.ok.inj h)
  have ha : p₁.AgreesOn p₂ (p₁.treePages H root) := hpages₁ ▸
    foldlM_agreesOn (f := fun index p => env.indexInsert index rowid record.columns p)
      (hidx · rowid record.columns) indexes p₁ p₂ h₄
  refine ⟨ht₁.congr ha, hr₃.congr ht.subtree.pos ha, (Pager.treePages_congr ha).trans hpages₁,
    ha.1.trans hsize₁, leafCell pager.usableSize rowid payload,
    ⟨by rw [leafCell_key]; exact hrowid, payload, hpay, by rw [leafCell_key]⟩, ?_⟩
  rw [Pager.cellsInOrder_congr ha]
  exact hperm

/-- A record with a rowid the table holds fails the conflict check. -/
theorem insertRecord_conflict (ht : TableTree pager H root) (hr : RootOk pager root s)
    (hfuel : H ≤ fuel) {indexes : List Idx} {record : InsertRecord Expr Cols} {rowid : ℤ}
    (hrowid : rowidOf env record = .ok (some rowid))
    (hk : rowid ∈ (pager.cellsInOrder false H root).map Cell.key) :
    insertRecord env fuel indexes record s pager = .error .uniqueConstraintViolation := by
  obtain ⟨s₂, hrun, -⟩ := tableMoveTo_spec rowid ht.subtree ht.ordered hr hfuel
  have hc := (tableMoveTo_eq_some_iff ht.subtree ht.ordered hr hfuel hrun).2 hk
  simp only [insertRecord, rowidFor, hrowid, except_ok_bind, pure_bind, runCursor_eq_ok.2 hrun,
    hc]
  rfl

/-! ### The batch -/

/-- **The loop.** Over all the records, with index insertions that keep the table's pages
`T`, a loop that succeeds counts one per record and adds one row per record, each rowid
fixed on the table with the rows before it. -/
theorem insertRecords_spec {indexes : List Idx} {T : List PageId} (hfuel : H ≤ fuel)
    (hidx : ∀ index rowid cols (p p' : Pager), env.indexInsert index rowid cols p = .ok p' →
      p.AgreesOn p' T) :
    ∀ (records : List (InsertRecord Expr Cols)) {s : BtreeCursor} {pager : Pager} {n : ℕ}
      {s' : BtreeCursor} {pager' : Pager} {n' : ℕ},
      TableTree pager H root → RootOk pager root s → pager.treePages H root = T →
      insertRecords env fuel indexes records s pager n = .ok (s', pager', n') →
      n' = n + records.length ∧ TableTree pager' H root ∧ RootOk pager' root s' ∧
        pager'.treePages H root = T ∧
        ∃ rows, InsertedRows env pager.usableSize ((pager.cellsInOrder false H root).map Cell.key)
          records rows ∧
          (pager'.cellsInOrder false H root).Perm (pager.cellsInOrder false H root ++ rows)
  | [], _, _, _, _, _, _, ht, hr, hT, h => by
    cases h
    exact ⟨rfl, ht, hr, hT, [], .nil _, by simp⟩
  | record :: records, _, pager, _, _, _, _, ht, hr, hT, h => by
    obtain ⟨⟨s₁, p₁⟩, h₁, h⟩ := except_bind_eq_ok.1 h
    obtain ⟨ht₁, hr₁, hT₁, hsize₁, row, hrow, hperm₁⟩ :=
      insertRecord_spec ht hr hfuel (hT ▸ hidx) h₁
    obtain ⟨hn, ht', hr', hT', rows, hrows, hperm⟩ :=
      insertRecords_spec hfuel hidx records ht₁ hr₁ (hT₁.trans hT) h
    rw [hsize₁] at hrows
    refine ⟨by simp only [hn, List.length_cons]; omega, ht', hr', hT', row :: rows,
      .cons hrow (hrows.perm (by simpa using hperm₁.map Cell.key)), ?_⟩
    exact hperm.trans (by simpa using hperm₁.append_right rows)

/-- The loop over `pre ++ post` is the loop over `post` after the loop over `pre`. -/
theorem insertRecords_append {indexes : List Idx} (pre post : List (InsertRecord Expr Cols)) :
    ∀ (s : BtreeCursor) (pager : Pager) (n : ℕ),
      insertRecords env fuel indexes (pre ++ post) s pager n =
        insertRecords env fuel indexes pre s pager n >>= fun (s, pager, n) =>
          insertRecords env fuel indexes post s pager n := by
  induction pre with
  | nil => exact fun _ _ _ => rfl
  | cons record pre ih =>
    intro s pager n
    simp only [List.cons_append, insertRecords]
    cases insertRecord env fuel indexes record s pager with
    | error e => rfl
    | ok r => exact ih r.1 r.2 (n + 1)

variable {stmt : InsertStatement Expr Cols Idx} {refCount : ℤ}

/-- `execute` returns `Ok(n)` when the loop ran through, on the pager it left. -/
theorem run_of_execute_eq_ok {n : ℕ} {pager' : Pager}
    (h : stmt.execute env fuel refCount pager = (.ok n, pager')) :
    ∃ s, stmt.run env fuel refCount pager = .ok (s, pager', n) := by
  rcases hr : stmt.run env fuel refCount pager with e | ⟨s, p, m⟩ <;>
    simp [InsertStatement.execute, hr] at h
  obtain ⟨rfl, rfl⟩ := h
  exact ⟨s, rfl⟩

/-- The loop runs when the write transaction starts and the cursor opens. -/
theorem run_eq_ok {r : BtreeCursor × Pager × ℕ} (h : stmt.run env fuel refCount pager = .ok r) :
    refCount = 0 ∧ ∃ s, BtreeCursor.new pager stmt.tablePageId = .ok s ∧
      insertRecords env fuel stmt.indexes stmt.records s pager 0 = .ok r := by
  obtain ⟨_, hw, h⟩ := except_bind_eq_ok.1 h
  obtain ⟨s, hs, h⟩ := except_bind_eq_ok.1 h
  refine ⟨?_, s, ?_, h⟩
  · unfold Connection.startWrite at hw
    split_ifs at hw with h0
    · exact h0
    · cases hw
  · cases hn : BtreeCursor.new pager stmt.tablePageId <;> simp_all [Except.mapError]

/-- **`execute`.** On a table tree, with index insertions that keep the table's pages: an
`execute` that returns `Ok(n)` has added one row per record, each under the record's rowid
or one past the largest before it, with the rowids still distinct, and `n` is the number of
records. Once the records before one with a rowid the table holds have been inserted, an
`execute` of the batch through that record fails with `UniqueConstraintViolation`, and the
pager is rolled back. -/
theorem execute_inserts_rows (stmt : InsertStatement Expr Cols Idx) (refCount : ℤ)
    (ht : TableTree pager H stmt.tablePageId) (hfuel : H ≤ fuel)
    (hidx : ∀ index rowid cols (p p' : Pager), env.indexInsert index rowid cols p = .ok p' →
      p.AgreesOn p' (pager.treePages H stmt.tablePageId)) :
    (∀ n pager', stmt.execute env fuel refCount pager = (.ok n, pager') →
      n = stmt.records.length ∧
      ∃ rows, InsertedRows env pager.usableSize
          ((pager.cellsInOrder false H stmt.tablePageId).map Cell.key) stmt.records rows ∧
        (pager'.cellsInOrder false H stmt.tablePageId).Perm
          (pager.cellsInOrder false H stmt.tablePageId ++ rows) ∧
        ((pager'.cellsInOrder false H stmt.tablePageId).map Cell.key).Nodup) ∧
    (∀ pre record post rowid n pager₁, stmt.records = pre ++ record :: post →
      rowidOf env record = .ok (some rowid) →
      { stmt with records := pre }.execute env fuel refCount pager = (.ok n, pager₁) →
      rowid ∈ (pager₁.cellsInOrder false H stmt.tablePageId).map Cell.key →
      stmt.execute env fuel refCount pager = (.error .uniqueConstraintViolation, pager)) := by
  constructor
  · intro n pager' h
    obtain ⟨s', hrun⟩ := run_of_execute_eq_ok h
    obtain ⟨-, s₀, hnew, hloop⟩ := run_eq_ok hrun
    obtain ⟨hn, ht', -, -, rows, hrows, hperm⟩ :=
      insertRecords_spec hfuel hidx stmt.records ht (Reachable.new hnew).rootOk rfl hloop
    exact ⟨by simpa using hn, rows, hrows, hperm,
      (Pager.sorted_cellsInOrder ht'.subtree ht'.ordered).nodup⟩
  · intro pre record post rowid n pager₁ hrec hrowid hpre hk
    obtain ⟨s₁, hrun⟩ := run_of_execute_eq_ok hpre
    obtain ⟨rfl, s₀, hnew, hloop⟩ := run_eq_ok hrun
    obtain ⟨-, ht₁, hr₁, -⟩ :=
      insertRecords_spec hfuel hidx pre ht (Reachable.new hnew).rootOk rfl hloop
    have hrun' : stmt.run env fuel 0 pager = .error .uniqueConstraintViolation := by
      simp only [InsertStatement.run, hrec, insertRecords_append, insertRecords] at hnew hloop ⊢
      simp only [Connection.startWrite, if_pos, except_mapError_ok, except_ok_bind, hnew, hloop,
        insertRecord_conflict ht₁ hr₁ hfuel hrowid hk]
      rfl
    simp [InsertStatement.execute, hrun']

end Spec

/-! ### Batches of literals -/

/-- Statements of integer literals, `NULL` as `none`: a rowid evaluates to itself, the
columns are their own payload, and the table has no index. -/
def literalEnv : InsertEnv (Option ℤ) ℤ (List UInt8) Unit where
  evaluate e := .ok e
  integerOf := some
  payloadOf := .ok
  indexInsert _ _ _ p := .ok p

/-- The literal statements insert into no index. -/
theorem literalEnv_indexInsert (T : List PageId) : ∀ index rowid cols (p p' : Pager),
    literalEnv.indexInsert index rowid cols p = .ok p' → p.AgreesOn p' T := fun _ _ _ _ _ h => by
  cases h
  exact Pager.AgreesOn.refl _

/-- `twoLevelTable` is a table tree of height `2` under page `2`. -/
theorem twoLevelTable_tableTree : TableTree twoLevelTable 2 2 :=
  ⟨by decide, by decide, by decide, by decide⟩

/-- One row with a `NULL` rowid into the table at page 2. -/
def insertNull : InsertStatement (Option ℤ) (List UInt8) Unit := ⟨2, [⟨some none, [7]⟩], []⟩

/-- The row of `insertNull`, then one with the rowid `13` it gets on `twoLevelTable`. -/
def insertNullThen13 : InsertStatement (Option ℤ) (List UInt8) Unit :=
  ⟨2, [⟨some none, [7]⟩, ⟨some (some 13), [8]⟩], []⟩

/-- On `twoLevelTable`, whose largest rowid is `12`, `insertNull` adds one row, and
`insertNullThen13` fails on its second record, whose rowid the first one got. -/
theorem twoLevelTable_execute :
    TableTree twoLevelTable 2 2 ∧
    (insertNull.execute literalEnv 2 0 twoLevelTable).1 = .ok 1 ∧
    (1 = insertNull.records.length ∧
      ∃ rows, InsertedRows literalEnv twoLevelTable.usableSize
          ((twoLevelTable.cellsInOrder false 2 2).map Cell.key) insertNull.records rows ∧
        ((insertNull.execute literalEnv 2 0 twoLevelTable).2.cellsInOrder false 2 2).Perm
          (twoLevelTable.cellsInOrder false 2 2 ++ rows) ∧
        (((insertNull.execute literalEnv 2 0 twoLevelTable).2.cellsInOrder false 2 2).map
          Cell.key).Nodup) ∧
    insertNullThen13.execute literalEnv 2 0 twoLevelTable =
      (.error .uniqueConstraintViolation, twoLevelTable) := by
  have hrun : insertNull.execute literalEnv 2 0 twoLevelTable =
      (.ok 1, (insertNull.execute literalEnv 2 0 twoLevelTable).2) := rfl
  have hidx := literalEnv_indexInsert (twoLevelTable.treePages 2 2)
  exact ⟨twoLevelTable_tableTree, congrArg Prod.fst hrun,
    (execute_inserts_rows insertNull 0 twoLevelTable_tableTree le_rfl hidx).1 1 _ hrun,
    (execute_inserts_rows insertNullThen13 0 twoLevelTable_tableTree le_rfl hidx).2
      [⟨some none, [7]⟩] ⟨some (some 13), [8]⟩ [] 13 1 _ rfl rfl hrun (by decide)⟩

/-- A table of one row, rowid `1`, on the leaf page 2, with six bytes between its cell
pointer array and its cell content area. -/
def fullLeafTable : Pager where
  numPages := 2
  page _ := ⟨.tableLeaf, 0, 16, 0, 0, [leafCell 512 1 [2, 1, 1]]⟩
  overflowPage _ := none
  usableSize := 512

/-- A batch whose first row does not fit on the leaf and whose second names the rowid `1`
the table holds: `execute` panics in `todo!("balance the btree")` on the first record and
never reaches the conflict check of the second. -/
theorem execute_panics_before_conflict :
    TableTree fullLeafTable 1 2 ∧
    1 ∈ (fullLeafTable.cellsInOrder false 1 2).map Cell.key ∧
    rowidOf literalEnv ⟨some (some 1), []⟩ = .ok (some 1) ∧
    InsertStatement.execute literalEnv 1
        ⟨2, [⟨some (some 2), [0, 0, 0, 0]⟩, ⟨some (some 1), []⟩], []⟩ 0 fullLeafTable =
      (.error (.panic "not yet implemented: balance the btree"), fullLeafTable) :=
  ⟨⟨by decide, by decide, by decide, by decide⟩, by decide, rfl, rfl⟩

/-! ### Runs of statements -/

section Runs

variable {Expr Value Cols Idx : Type} (env : InsertEnv Expr Value Cols Idx) (fuel : ℕ)
  (root : PageId) (pager₀ : Pager)

/-- The pagers a run of `INSERT` statements into the table at `root` reaches from `pager₀`,
each statement executed on the pager the one before committed or rolled back to. -/
inductive InsertReachable : Pager → Prop
  | init : InsertReachable pager₀
  | step {pager : Pager} (stmt : InsertStatement Expr Cols Idx) (refCount : ℤ) :
      InsertReachable pager → stmt.tablePageId = root →
      InsertReachable (stmt.execute env fuel refCount pager).2

variable {env fuel root pager₀} {H : ℕ}

/-- **Runs of `INSERT`s.** With index insertions that keep the table's pages, every pager
a run of `INSERT`s reaches keeps the table a table tree on the same pages, whatever each
statement returned: a statement that fails leaves the pager as it was. -/
theorem InsertReachable.tableTree (ht : TableTree pager₀ H root) (hfuel : H ≤ fuel)
    (hidx : ∀ index rowid cols (p p' : Pager), env.indexInsert index rowid cols p = .ok p' →
      p.AgreesOn p' (pager₀.treePages H root))
    {pager : Pager} (h : InsertReachable env fuel root pager₀ pager) :
    TableTree pager H root ∧ pager.treePages H root = pager₀.treePages H root := by
  induction h with
  | init => exact ⟨ht, rfl⟩
  | @step pager stmt refCount _ hroot ih =>
    subst hroot
    rcases hr : stmt.run env fuel refCount pager with e | ⟨s, pager', n⟩
    · simpa [InsertStatement.execute, hr] using ih
    · obtain ⟨-, s₀, hnew, hloop⟩ := run_eq_ok hr
      obtain ⟨-, ht', -, hT', -⟩ :=
        insertRecords_spec hfuel hidx stmt.records ih.1 (Reachable.new hnew).rootOk ih.2 hloop
      simpa [InsertStatement.execute, hr] using ⟨ht', hT'⟩

/-- `insertNull`, then `insertNullThen13`, on `twoLevelTable`. -/
theorem twoLevelTable_insert_run :
    TableTree twoLevelTable 2 2 ∧
    TableTree (insertNullThen13.execute literalEnv 2 0
      (insertNull.execute literalEnv 2 0 twoLevelTable).2).2 2 2 ∧
    (insertNullThen13.execute literalEnv 2 0
      (insertNull.execute literalEnv 2 0 twoLevelTable).2).2.treePages 2 2 =
        twoLevelTable.treePages 2 2 :=
  ⟨twoLevelTable_tableTree, InsertReachable.tableTree twoLevelTable_tableTree le_rfl
    (literalEnv_indexInsert _) (.step insertNullThen13 0 (.step insertNull 0 .init rfl) rfl)⟩

end Runs

end Prsqlite
