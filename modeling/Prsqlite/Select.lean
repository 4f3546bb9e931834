import Prsqlite.Seek

/-!
# Select Statements

`SelectStatement::query` opens a cursor on the table and positions it: by `table_move_to`
for a `rowid = <integer>` filter, through a second cursor on an index positioned by
`index_move_to` for an indexed `<col> = <constant>` filter, and by `move_to_first`
otherwise. `Rows::next_row` then steps with `Rows::move_next` (one row on the rowid
path, the index cursor and a `table_move_to` per entry on the index path, the table
cursor otherwise), reads the row, and skips it when the filter rejects it.

The record decoder and the expression evaluator are not part of the source. They enter
as parameters: `parseRow` stands for `parse_record_header` and the payload checks of
`next_row`, `SelectStatement.parseRecord` for `parse_record` of an index entry in
`Rows::move_next`, `IndexInfo.matchRow` for the key comparison and rowid read that follow
it, and `SelectStatement.filter` for evaluating the filter on a row.

## Main results

* `nextRow_panics_after_none`: on a full scan of a table of two leaves, `next_row`
  returns `None` at the end without marking the rows completed, and the next call fails
  an assertion in `BtreeCursor::move_next`.
-/

namespace Prsqlite

/-- `IndexInfo`, through what the execution does with it: the index's root page, the
comparison `compare_record` of its keys with an entry, and what `Rows::move_next` reads of
a parsed entry: the rowid it indexes, or `none` once its keys no longer match. -/
structure IndexInfo where
  pageId : PageId
  compareRecord : PayloadInfo → Except Error Ordering
  matchRow : PayloadInfo → Except Error (Option ℤ)

/-- `SelectStatement`, through what `query` and `next_row` read of it. `filter` evaluates
the `WHERE` expression on a row: `true` unless it is `NULL` or `0`. `parseRecord` is
`parse_record` on an index entry, through whether it fails. -/
structure SelectStatement where
  tablePageId : PageId
  rowid : Option ℤ
  index : Option IndexInfo
  filter : Option (ℤ → PayloadInfo → Except Error Bool)
  parseRecord : PayloadInfo → Except Error Unit

/-- `Rows`: the table cursor, the index cursor of the index path, and two flags. -/
structure Rows where
  cursor : BtreeCursor
  indexCursor : Option BtreeCursor
  isFirstRow : Bool
  completed : Bool
  deriving DecidableEq, Repr

/-- The methods of `Rows`, which keep their mutations when they fail. -/
abbrev RowsM := EStateM Error Rows

/-- A cursor method run on the table cursor. -/
def onCursor {α : Type} (x : CursorM α) : RowsM α := fun r =>
  match x r.cursor with
  | .ok a c => .ok a { r with cursor := c }
  | .error e c => .error e { r with cursor := c }

/-- A cursor method run on the index cursor `c`. -/
def onIndexCursor {α : Type} (c : BtreeCursor) (x : CursorM α) : RowsM α := fun r =>
  match x c with
  | .ok a c' => .ok a { r with indexCursor := some c' }
  | .error e c' => .error e { r with indexCursor := some c' }

/-- A fallible computation that leaves `Rows` alone. -/
def liftRows {α : Type} : Except Error α → RowsM α
  | .ok a => pure a
  | .error e => throw e

@[simp] theorem liftRows_ok {α : Type} (a : α) (r : Rows) : liftRows (.ok a) r = .ok a r := rfl

section Execution

variable (pager : Pager) (stmt : SelectStatement) (parseRow : PayloadInfo → Except Error Unit)
  (fuel : ℕ)

/-- `SelectStatement::query` on a fresh cursor: position the cursors. -/
def query : Except Error Rows := do
  let cursor ← BtreeCursor.new pager stmt.tablePageId
  let start (cursor : BtreeCursor) (indexCursor : Option BtreeCursor) : Rows :=
    ⟨cursor, indexCursor, true, false⟩
  match stmt.rowid, stmt.index with
  | some rowid, _ =>
    match tableMoveTo pager fuel rowid cursor with
    | .ok _ c => pure (start c none)
    | .error e _ => throw e
  | none, some index =>
    let indexCursor ← BtreeCursor.new pager index.pageId
    match indexMoveTo pager fuel index.compareRecord indexCursor with
    | .ok _ c => pure (start cursor (some c))
    | .error e _ => throw e
  | none, none =>
    match moveToFirst pager fuel cursor with
    | .ok _ c => pure (start c none)
    | .error e _ => throw e

/-- `Rows::move_next`: step the cursor that drives the scan; on the index path, follow
the entry to its row. `false` when there is no further row. -/
def Rows.moveNext : RowsM Bool := do
  let r ← get
  if r.isFirstRow then
    set { r with isFirstRow := false }
  else if stmt.rowid.isSome then
    return false
  else match r.indexCursor with
    | some c => onIndexCursor c (Prsqlite.moveNext pager fuel)
    | none => onCursor (Prsqlite.moveNext pager fuel)
  match (← get).indexCursor with
  | none => return true
  | some c =>
    let some indexPayload ← liftRows (getIndexPayload pager c) | return false
    liftRows (stmt.parseRecord indexPayload)
    let some index := stmt.index
      | throw (.panic "assertion failed: self.stmt.index.is_some()")
    let some rowid ← liftRows (index.matchRow indexPayload) | return false
    discard <| onCursor (tableMoveTo pager fuel rowid)
    return true

/-- The `loop` of `Rows::next_row`: step, read the row, and go on while the filter
rejects it. `false` when `next_row` returns `None` from inside the loop. -/
def nextRowLoop : ℕ → RowsM Bool
  | 0 => throw .outOfFuel
  | loopFuel + 1 => do
    let found ← tryCatch (Rows.moveNext pager stmt fuel) fun e => do
      modify fun r => { r with completed := true }
      throw e
    if !found then
      modify fun r => { r with completed := true }
      return false
    let some (rowid, payload) ← liftRows (getTablePayload pager (← get).cursor) | return false
    liftRows (parseRow payload)
    match stmt.filter with
    | none => return true
    | some filter => if ← liftRows (filter rowid payload) then return true else nextRowLoop loopFuel

/-- `Rows::next_row`: the next row, as its rowid and payload. -/
def nextRow : RowsM (Option (ℤ × PayloadInfo)) := do
  if (← get).completed then return none
  if !(← nextRowLoop pager stmt parseRow fuel fuel) then return none
  match ← liftRows (getTablePayload pager (← get).cursor) with
  | none =>
    modify fun r => { r with completed := true }
    return none
  | some row => return some row

/-- `k` calls of `next_row`, with what each returned. -/
def nextRows : ℕ → RowsM (List (Option (ℤ × PayloadInfo)))
  | 0 => pure []
  | k + 1 => do
    let rows ← nextRows k
    let row ← nextRow pager stmt parseRow fuel
    return rows ++ [row]

end Execution

/-! ### Where the code departs from its contract -/

/-- On a full scan of `twoLevelTable`, with any record decoder that accepts its rows, the
fifth `next_row` returns `None` without setting `completed`, and the sixth runs
`BtreeCursor::move_next` from the root past its end, which fails an assertion. -/
theorem nextRow_panics_after_none {parseRow : PayloadInfo → Except Error Unit}
    (hp : ∀ p, parseRow p = .ok ()) :
    ∃ rows r, query twoLevelTable ⟨2, none, none, none, fun _ => .ok ()⟩ 2 = .ok rows ∧
      nextRows twoLevelTable ⟨2, none, none, none, fun _ => .ok ()⟩ parseRow 2 5 rows =
        .ok [some (1, ⟨3, [2, 1, 1], none⟩), some (2, ⟨3, [2, 1, 2], none⟩),
          some (11, ⟨3, [2, 1, 11], none⟩), some (12, ⟨3, [2, 1, 12], none⟩), none] r ∧
      r.completed = false ∧
      ∃ r', nextRow twoLevelTable ⟨2, none, none, none, fun _ => .ok ()⟩ parseRow 2 r =
        .error (.panic "assertion failed: self.current_page.is_leaf") r' := by
  obtain rfl : parseRow = fun _ => .ok () := funext hp
  exact ⟨_, _, rfl, rfl, rfl, _, rfl⟩

/-- The decoder that accepts every row. -/
theorem nextRow_panics_after_none_of_accepting :
    (∀ p : PayloadInfo, (fun _ => .ok () : PayloadInfo → Except Error Unit) p = .ok ()) ∧
    ∃ rows r, query twoLevelTable ⟨2, none, none, none, fun _ => .ok ()⟩ 2 = .ok rows ∧
      nextRows twoLevelTable ⟨2, none, none, none, fun _ => .ok ()⟩ (fun _ => .ok ()) 2 5 rows =
        .ok [some (1, ⟨3, [2, 1, 1], none⟩), some (2, ⟨3, [2, 1, 2], none⟩),
          some (11, ⟨3, [2, 1, 11], none⟩), some (12, ⟨3, [2, 1, 12], none⟩), none] r ∧
      r.completed = false ∧
      ∃ r', nextRow twoLevelTable ⟨2, none, none, none, fun _ => .ok ()⟩ (fun _ => .ok ()) 2
          r =
        .error (.panic "assertion failed: self.current_page.is_leaf") r' :=
  ⟨fun _ => rfl, nextRow_panics_after_none fun _ => rfl⟩

end Prsqlite
