import Prsqlite.Scan

/-!
# Sessions

A `Connection` is shared: `SelectStatement::query`, `InsertStatement::execute` and
`DeleteStatement::execute` all take it by `&self`, so its users may interleave them
freely and keep several `Rows` open while they try to write. `ref_count` is what keeps
the `Rows` apart from the writes: each `Rows` holds a read guard until it is dropped, and
a write starts only when no guard is alive.

`Session` is a connection together with the `Rows` its users hold open, each with what
its calls of `next_row` returned. `Session.step` is one call of the connection's API, and
`SessionReachable` every state a run from a freshly opened connection reaches.
`DeleteStatement::execute` calls `BtreeCursor::clear`, which `cursor.rs` does not have: it
enters as the parameter `clear`, as the index insertions enter `InsertEnv`.

## Main results

* `Session.step_inv`: every call keeps `Session.Inv`: `ref_count` counts the open `Rows`,
  and each of them is where its statement would be had it run alone on the current pages.
* `session_refines_guards`: every session has the guards of a state the guard model of
  `Prsqlite.Transaction` reaches.
* `scan_isolation`: in every reachable state, each open `Rows` has returned exactly what
  it would have returned alone, and while one is open every `INSERT` and `DELETE` fails
  at `start_write` and leaves the pages as they are.
* `fullScan_isolated`: whatever else the session does, an open full scan has returned the
  rows of its table in rowid order that its filter keeps, then `None`.
-/

namespace Prsqlite

/-! ### Writes -/

/-- `DeleteStatement`: the root pages of the table and of its indexes. -/
structure DeleteStatement where
  tablePageId : PageId
  indexPageIds : List PageId

section Delete

variable (clear : Pager → CursorM (ℕ × Pager))

/-- The body of `DeleteStatement::execute` inside its write transaction: clear the table,
then each index, which has to lose as many entries as the table. -/
def DeleteStatement.run (stmt : DeleteStatement) (refCount : ℤ) (pager : Pager) :
    Except StatementError (Pager × ℕ) := do
  let _ ← (Connection.startWrite refCount).mapError .other
  let cursor ← (BtreeCursor.new pager stmt.tablePageId).mapError liftCursor
  let ((nDeleted, pager), _) ← runCursor (clear pager) cursor
  let pager ← stmt.indexPageIds.foldlM (fun pager indexPageId => do
      let cursor ← (BtreeCursor.new pager indexPageId).mapError liftCursor
      let ((n, pager), _) ← runCursor (clear pager) cursor
      if n ≠ nDeleted then
        throw (.other "number of deleted rows in table and index does not match")
      pure pager) pager
  pure (pager, nDeleted)

/-- `DeleteStatement::execute`: the number of rows deleted and the pager afterwards,
rolled back on an error. -/
def DeleteStatement.execute (stmt : DeleteStatement) (refCount : ℤ) (pager : Pager) :
    Except StatementError ℕ × Pager :=
  match stmt.run clear refCount pager with
  | .ok (pager', n) => (.ok n, pager')
  | .error e => (.error e, pager)

/-- With a guard alive, `DeleteStatement::execute` fails at `start_write`. -/
theorem DeleteStatement.execute_of_ne_zero (stmt : DeleteStatement) {refCount : ℤ}
    (pager : Pager) (h : refCount ≠ 0) :
    stmt.execute clear refCount pager = (.error (.other "other statments running"), pager) := by
  simp only [execute, run, Connection.startWrite, if_neg h]
  rfl

end Delete

/-- With a guard alive, `InsertStatement::execute` fails at `start_write`. -/
theorem InsertStatement.execute_of_ne_zero {Expr Value Cols Idx : Type}
    (env : InsertEnv Expr Value Cols Idx) (fuel : ℕ) (stmt : InsertStatement Expr Cols Idx)
    {refCount : ℤ} (pager : Pager) (h : refCount ≠ 0) :
    stmt.execute env fuel refCount pager = (.error (.other "other statments running"), pager) := by
  simp only [execute, run, Connection.startWrite, if_neg h]
  rfl

/-- `ref_count` after a statement that takes a write transaction: `start_write` sets it,
and the drop of the guard, when the statement returns at the latest, resets it. -/
def refCountAfterWrite (refCount : ℤ) : ℤ :=
  match Connection.startWrite refCount with
  | .ok refCount => WriteTransaction.drop refCount
  | .error _ => refCount

/-- A write transaction does not outlive its statement, so `ref_count` comes back to
where it was. -/
@[simp] theorem refCountAfterWrite_eq (refCount : ℤ) : refCountAfterWrite refCount = refCount := by
  unfold refCountAfterWrite Connection.startWrite
  split_ifs with h <;> simp [h, WriteTransaction.drop]

/-! ### Reads -/

section Calls

variable (pager : Pager) (stmt : SelectStatement) (parseRow : PayloadInfo → Except Error Unit)
  (fuel : ℕ)

/-- A call of `next_row`: what it returned, and the `Rows` afterwards, which keep their
mutations on an error. -/
def callNextRow (r : Rows) : Except Error (Option (ℤ × PayloadInfo)) × Rows :=
  match nextRow pager stmt parseRow fuel r with
  | .ok row r => (.ok row, r)
  | .error e r => (.error e, r)

/-- `k` calls of `next_row` by a caller that goes on after an error. -/
def callsNextRow : ℕ → Rows → List (Except Error (Option (ℤ × PayloadInfo))) × Rows
  | 0, r => ([], r)
  | k + 1, r =>
    let (returned, r) := callsNextRow k r
    let (row, r) := callNextRow pager stmt parseRow fuel r
    (returned ++ [row], r)

variable {pager stmt parseRow fuel}

/-- Calls that all succeed return what `nextRows` collects. -/
theorem callsNextRow_of_nextRows : ∀ {k : ℕ} {r r' : Rows}
    {rows : List (Option (ℤ × PayloadInfo))},
    nextRows pager stmt parseRow fuel k r = .ok rows r' →
      callsNextRow pager stmt parseRow fuel k r = (rows.map .ok, r')
  | 0, _, _, _, h => by cases h; rfl
  | k + 1, r, r', rows, h => by
    rcases h₁ : nextRows pager stmt parseRow fuel k r with ⟨rows₁, r₁⟩ | ⟨e, r₁⟩
    · rcases h₂ : nextRow pager stmt parseRow fuel r₁ with ⟨row, r₂⟩ | ⟨e, r₂⟩
      · rw [nextRows_succ_of_ok h₁ h₂] at h
        cases h
        simp [callsNextRow, callsNextRow_of_nextRows h₁, callNextRow, h₂]
      · simp [nextRows, h₁, h₂] at h
    · simp [nextRows, h₁] at h

end Calls

/-! ### The connection -/

/-- An open `Rows`: its statement, its state, and what each call of `next_row` on it
returned. -/
structure OpenRows where
  stmt : SelectStatement
  rows : Rows
  returned : List (Except Error (Option (ℤ × PayloadInfo)))

/-- A connection: its pages, its `ref_count`, and the `Rows` its users hold open. -/
structure Session where
  pager : Pager
  refCount : ℤ
  openRows : List OpenRows

/-- A call of the connection's API: `SelectStatement::query`, `Rows::next_row` or the drop
of an open `Rows`, or `execute` of an `INSERT` or a `DELETE`. -/
inductive SessionEvent (Expr Cols Idx : Type)
  | query (stmt : SelectStatement)
  | nextRow (i : ℕ)
  | dropRows (i : ℕ)
  | insert (stmt : InsertStatement Expr Cols Idx)
  | delete (stmt : DeleteStatement)

section Session

variable {Expr Value Cols Idx : Type} (env : InsertEnv Expr Value Cols Idx)
  (clear : Pager → CursorM (ℕ × Pager)) (parseRow : PayloadInfo → Except Error Unit)
  (fuel : ℕ)

/-- One call; `next_row` and the drop only on a `Rows` that is open. `query` takes its read
guard first and drops it again when positioning the cursors fails. -/
def Session.step (s : Session) : SessionEvent Expr Cols Idx → Option Session
  | .query stmt => some <|
    match Connection.startRead s.refCount with
    | .error _ => s
    | .ok refCount =>
      match query s.pager stmt fuel with
      | .ok rows => { s with refCount, openRows := s.openRows ++ [⟨stmt, rows, []⟩] }
      | .error _ => { s with refCount := ReadTransaction.drop refCount }
  | .nextRow i => s.openRows[i]?.map fun o =>
    let (row, rows) := callNextRow s.pager o.stmt parseRow fuel o.rows
    { s with openRows := s.openRows.set i { o with rows, returned := o.returned ++ [row] } }
  | .dropRows i =>
    if i < s.openRows.length then
      some { s with refCount := ReadTransaction.drop s.refCount,
                    openRows := s.openRows.eraseIdx i }
    else none
  | .insert stmt => some
    { s with pager := (stmt.execute env fuel s.refCount s.pager).2,
             refCount := refCountAfterWrite s.refCount }
  | .delete stmt => some
    { s with pager := (stmt.execute clear s.refCount s.pager).2,
             refCount := refCountAfterWrite s.refCount }

/-- The states reached from a connection freshly opened on any database by any sequence
of calls. -/
inductive SessionReachable : Session → Prop
  | init (pager : Pager) : SessionReachable ⟨pager, 0, []⟩
  | step {s s' : Session} (e : SessionEvent Expr Cols Idx) :
      SessionReachable s → s.step env clear parseRow fuel e = some s' → SessionReachable s'

/-- Where an open `Rows` is when it has run alone on `pager`: `query` there, then as many
calls of `next_row` as it has had. -/
def OpenRows.Alone (pager : Pager) (o : OpenRows) : Prop :=
  ∃ r, query pager o.stmt fuel = .ok r ∧
    callsNextRow pager o.stmt parseRow fuel o.returned.length r = (o.returned, o.rows)

/-- `ref_count` counts the open `Rows`, and each is where it would be alone. -/
def Session.Inv (s : Session) : Prop :=
  s.refCount = s.openRows.length ∧ ∀ o ∈ s.openRows, o.Alone parseRow fuel s.pager

variable {env clear parseRow fuel}

/-- A call of `next_row` on a `Rows` that is where it would be alone leaves it so. -/
theorem OpenRows.Alone.nextRow {pager : Pager} {o : OpenRows} (h : o.Alone parseRow fuel pager) :
    { o with rows := (callNextRow pager o.stmt parseRow fuel o.rows).2,
             returned := o.returned ++ [(callNextRow pager o.stmt parseRow fuel o.rows).1] }.Alone
      parseRow fuel pager := by
  obtain ⟨r, hq, hcalls⟩ := h
  refine ⟨r, hq, ?_⟩
  simp only [List.length_append, List.length_singleton, callsNextRow, hcalls]

/-- **The step lemma.** -/
theorem Session.step_inv {s s' : Session} {e : SessionEvent Expr Cols Idx}
    (hi : s.Inv parseRow fuel) (hs : s.step env clear parseRow fuel e = some s') :
    s'.Inv parseRow fuel := by
  obtain ⟨hc, hall⟩ := hi
  have hne : ∀ o ∈ s.openRows, s.refCount ≠ 0 := fun o ho => by
    rw [hc]; exact Nat.cast_ne_zero.2 (List.length_pos_of_mem ho).ne'
  cases e with
  | query stmt =>
    obtain rfl := Option.some.inj hs
    have hread : Connection.startRead s.refCount = .ok (s.openRows.length + 1) := by
      rw [hc, Connection.startRead, if_pos (Int.natCast_nonneg _)]
    rcases hq : query s.pager stmt fuel with _ | rows
    · simp only [hread, hq]
      exact ⟨by simp [ReadTransaction.drop], hall⟩
    · simp only [hread, hq]
      refine ⟨by simp, fun o ho => ?_⟩
      rcases List.mem_append.1 ho with ho | ho
      · exact hall o ho
      · obtain rfl := List.mem_singleton.1 ho
        exact ⟨rows, hq, rfl⟩
  | nextRow i =>
    obtain ⟨o, ho, rfl⟩ := Option.map_eq_some'.1 hs
    obtain ⟨hi, rfl⟩ := List.getElem?_eq_some.1 ho
    refine ⟨by simpa using hc, fun o' ho' => ?_⟩
    rcases List.mem_or_eq_of_mem_set ho' with ho' | rfl
    exacts [hall o' ho', (hall _ (List.getElem_mem hi)).nextRow]
  | dropRows i =>
    simp only [step] at hs
    split_ifs at hs with hi
    obtain rfl := Option.some.inj hs
    refine ⟨?_, fun o ho => hall o (List.mem_of_mem_eraseIdx ho)⟩
    simp only [ReadTransaction.drop, List.length_eraseIdx, if_pos hi, hc]
    omega
  | insert stmt =>
    obtain rfl := Option.some.inj hs
    refine ⟨by simpa using hc, fun o ho => ?_⟩
    simpa only [InsertStatement.execute_of_ne_zero _ _ _ _ (hne o ho)] using hall o ho
  | delete stmt =>
    obtain rfl := Option.some.inj hs
    refine ⟨by simpa using hc, fun o ho => ?_⟩
    simpa only [DeleteStatement.execute_of_ne_zero _ _ _ (hne o ho)] using hall o ho

/-- **The run lemma.** -/
theorem SessionReachable.inv {s : Session} (h : SessionReachable env clear parseRow fuel s) :
    s.Inv parseRow fuel := by
  induction h with
  | init => exact ⟨rfl, fun _ h => absurd h (List.not_mem_nil _)⟩
  | step _ _ hs ih => exact Session.step_inv ih hs

/-- The guards of a session, as the guard model of `Prsqlite.Transaction` counts them: its
`ref_count`, one read guard per open `Rows`, and no write guard, since none outlives its
statement. -/
def Session.guards (s : Session) : Txns := ⟨s.refCount, s.openRows.length, 0⟩

/-- **Sessions refine the guard model.** Every state of a session has the guards of a
state the guard model reaches: `query` starts a read and ends it again when positioning
fails, the drop of a `Rows` ends its read, and `next_row` and the writes leave the guards
as they were. -/
theorem session_refines_guards {s : Session} (h : SessionReachable env clear parseRow fuel s) :
    TxnReachable s.guards := by
  induction h with
  | init => exact .init
  | @step s s' e _ hs ih =>
    cases e with
    | query stmt =>
      obtain rfl := Option.some.inj hs
      rcases hr : Connection.startRead s.refCount with _ | refCount
      · simpa [hr] using ih
      have h₁ : TxnReachable ⟨refCount, s.openRows.length + 1, 0⟩ :=
        .step .startRead ih (by simp [Txns.step, Session.guards, hr])
      rcases hq : query s.pager stmt fuel with _ | rows
      · simpa [hr, hq, Session.guards] using h₁.step .dropRead (by simp [Txns.step])
      · simpa [hr, hq, Session.guards] using h₁
    | nextRow i =>
      obtain ⟨o, -, rfl⟩ := Option.map_eq_some'.1 hs
      simpa [Session.guards] using ih
    | dropRows i =>
      simp only [Session.step] at hs
      split_ifs at hs with hi
      obtain rfl := Option.some.inj hs
      have h₁ : TxnReachable ⟨ReadTransaction.drop s.refCount, s.openRows.length - 1, 0⟩ :=
        ih.step .dropRead (by simp [Txns.step, Session.guards, (Nat.zero_le i).trans_lt hi])
      simpa [Session.guards, List.length_eraseIdx, hi] using h₁
    | insert stmt =>
      obtain rfl := Option.some.inj hs
      simpa [Session.guards] using ih
    | delete stmt =>
      obtain rfl := Option.some.inj hs
      simpa [Session.guards] using ih

/-- The guards after a full scan of `twoLevelTable` is opened and stepped, and a write is
tried. -/
theorem twoLevelTable_session_refines_guards :
    ∃ s, SessionReachable literalEnv (fun pager => pure (0, pager)) (fun _ => .ok ()) 2 s ∧
      TxnReachable s.guards :=
  have h : SessionReachable literalEnv (fun pager => pure (0, pager)) (fun _ => .ok ()) 2 _ :=
    .step (.insert insertNull) (.step (.nextRow 0)
      (.step (.query ⟨2, none, none, none, fun _ => .ok ()⟩) (.init twoLevelTable) rfl) rfl) rfl
  ⟨_, h, session_refines_guards h⟩

/-- **Scan isolation.** Over any interleaving of queries, calls of `next_row`, drops of
`Rows` and `INSERT` and `DELETE` statements on a fresh connection, `ref_count` is the number
of open `Rows`; each open `Rows` has returned exactly what its first calls of `next_row`
return when it runs alone on the current pages, right after its `query`; and while one is
open, every `INSERT` and every `DELETE` fails at `start_write` and leaves the pages as they
are, so that the current pages are those it was opened on. -/
theorem scan_isolation {s : Session} (h : SessionReachable env clear parseRow fuel s) :
    s.refCount = s.openRows.length ∧
    (∀ o ∈ s.openRows, ∃ r, query s.pager o.stmt fuel = .ok r ∧
      callsNextRow s.pager o.stmt parseRow fuel o.returned.length r = (o.returned, o.rows)) ∧
    (s.openRows ≠ [] →
      (∀ stmt : InsertStatement Expr Cols Idx, stmt.execute env fuel s.refCount s.pager =
        (.error (.other "other statments running"), s.pager)) ∧
      ∀ stmt : DeleteStatement, stmt.execute clear s.refCount s.pager =
        (.error (.other "other statments running"), s.pager)) := by
  obtain ⟨hc, hall⟩ := h.inv
  refine ⟨hc, hall, fun hne => ?_⟩
  have h0 : s.refCount ≠ 0 := by
    rw [hc]; exact Nat.cast_ne_zero.2 (List.length_pos.2 hne).ne'
  exact ⟨fun stmt => stmt.execute_of_ne_zero env fuel _ h0,
    fun stmt => stmt.execute_of_ne_zero clear _ h0⟩

/-- The first `k` calls of `next_row` on a full scan, up to the one that returns `None`. -/
theorem nextRows_fullScan_take {pager : Pager} {stmt : SelectStatement} {H : ℕ}
    {keep : ℤ × PayloadInfo → Bool} (hwf : pager.Subtree false H stmt.tablePageId)
    (hrowid : stmt.rowid = none) (hindex : stmt.index = none) (hfuel : H ≤ fuel)
    (hlen : (pager.tableRows H stmt.tablePageId).length < fuel)
    (hrows : ∀ x ∈ pager.tableRows H stmt.tablePageId,
      parseRow x.2 = .ok () ∧ stmt.keeps x = .ok (keep x))
    {k : ℕ} (hk : k ≤ ((pager.tableRows H stmt.tablePageId).filter keep).length + 1) :
    ∃ r, query pager stmt fuel = .ok r ∧ ∃ r', nextRows pager stmt parseRow fuel k r =
      .ok ((((pager.tableRows H stmt.tablePageId).filter keep).map some ++ [none]).take k) r' := by
  obtain ⟨r, hq, hc, hr⟩ := query_fullScan hwf hfuel hrowid hindex
  refine ⟨r, hq, ?_⟩
  rcases hk.lt_or_eq with hk | rfl
  · obtain ⟨r', -, hrun, -⟩ := nextRows_feeds_take (fullScan_feeds hwf hfuel hrowid) hr hc hlen
      hrows k (Nat.lt_succ_iff.1 hk)
    rw [List.take_append_of_le_length (by simpa using Nat.lt_succ_iff.1 hk), ← List.map_take]
    exact ⟨r', hrun⟩
  · obtain ⟨r', hrun, -⟩ := nextRows_feeds (fullScan_feeds hwf hfuel hrowid) hr hc hlen hrows
    rw [List.take_of_length_le (by simp)]
    exact ⟨r', hrun⟩

/-- **Full scans under interleaving.** In every reachable state of a connection, an open
full scan of a table tree whose rows the decoder and the filter accept has returned, call
by call, the rows of the table in tree order that the filter keeps, then `None`, as far as
it has got. On an ordered table tree that order is strictly ascending rowid order. -/
theorem fullScan_isolated {s : Session} (h : SessionReachable env clear parseRow fuel s)
    {o : OpenRows} (ho : o ∈ s.openRows) {H : ℕ} {keep : ℤ × PayloadInfo → Bool}
    (hwf : s.pager.Subtree false H o.stmt.tablePageId) (hrowid : o.stmt.rowid = none)
    (hindex : o.stmt.index = none) (hfuel : H ≤ fuel)
    (hlen : (s.pager.tableRows H o.stmt.tablePageId).length < fuel)
    (hrows : ∀ x ∈ s.pager.tableRows H o.stmt.tablePageId,
      parseRow x.2 = .ok () ∧ o.stmt.keeps x = .ok (keep x))
    (hk : o.returned.length ≤ ((s.pager.tableRows H o.stmt.tablePageId).filter keep).length + 1) :
    o.returned = ((((s.pager.tableRows H o.stmt.tablePageId).filter keep).map some ++
      [none]).take o.returned.length).map .ok ∧
    (s.pager.TableOrdered H o.stmt.tablePageId →
      (((s.pager.tableRows H o.stmt.tablePageId).filter keep).map Prod.fst).Sorted (· < ·)) := by
  obtain ⟨r, hq, hcalls⟩ := h.inv.2 o ho
  obtain ⟨r₀, hq₀, r', hrun⟩ := nextRows_fullScan_take hwf hrowid hindex hfuel hlen hrows hk
  obtain rfl : r₀ = r := Except.ok.inj (hq₀.symm.trans hq)
  refine ⟨(congrArg Prod.fst ((callsNextRow_of_nextRows hrun).symm.trans hcalls)).symm,
    fun hord => ?_⟩
  -- the rows kept are a sublist of the table's rows, whose keys strictly ascend
  have hsorted := Pager.sorted_cellsInOrder hwf hord
  rw [← Pager.tableRows_map_fst] at hsorted
  exact hsorted.sublist ((List.filter_sublist _).map _)

/-- A full scan of `twoLevelTable` stepped twice, `insertNull` tried, and a third step. -/
theorem twoLevelTable_fullScan_isolated :
    ∃ s o, SessionReachable literalEnv (fun pager => pure (0, pager)) (fun _ => .ok ()) 5 s ∧
      o ∈ s.openRows ∧ s.pager.Subtree false 2 o.stmt.tablePageId ∧ o.stmt.rowid = none ∧
      o.stmt.index = none ∧ 2 ≤ 5 ∧ (s.pager.tableRows 2 o.stmt.tablePageId).length < 5 ∧
      (∀ x ∈ s.pager.tableRows 2 o.stmt.tablePageId,
        (fun _ => .ok () : PayloadInfo → Except Error Unit) x.2 = .ok () ∧
          o.stmt.keeps x = .ok true) ∧
      o.returned.length ≤
        ((s.pager.tableRows 2 o.stmt.tablePageId).filter fun _ => true).length + 1 ∧
      o.returned = ((((s.pager.tableRows 2 o.stmt.tablePageId).filter fun _ => true).map some ++
        [none]).take o.returned.length).map .ok ∧
      (s.pager.TableOrdered 2 o.stmt.tablePageId →
        (((s.pager.tableRows 2 o.stmt.tablePageId).filter fun _ => true).map Prod.fst).Sorted
          (· < ·)) :=
  have h : SessionReachable literalEnv (fun pager => pure (0, pager)) (fun _ => .ok ()) 5 _ :=
    .step (.nextRow 0) (.step (.insert insertNull) (.step (.nextRow 0) (.step (.nextRow 0)
      (.step (.query ⟨2, none, none, none, fun _ => .ok ()⟩) (.init twoLevelTable) rfl) rfl) rfl)
        rfl) rfl
  have ho := List.getElem_mem (l := _) (n := 0) (by decide)
  have hwf : twoLevelTable.Subtree false 2 2 := by decide
  ⟨_, _, h, ho, hwf, rfl, rfl, by decide, by decide, fun _ _ => ⟨rfl, rfl⟩, by decide,
    fullScan_isolated h ho hwf rfl rfl (by decide) (by decide) (fun _ _ => ⟨rfl, rfl⟩)
      (by decide)⟩

/-- A full scan of `twoLevelTable` opened and stepped once, then `insertNull` tried while
it is open. -/
theorem twoLevelTable_scan_isolation :
    ∃ s, SessionReachable literalEnv (fun pager => pure (0, pager)) (fun _ => .ok ()) 2 s ∧
      s.openRows.length = 1 ∧
      (s.refCount = s.openRows.length ∧
        (∀ o ∈ s.openRows, ∃ r, query s.pager o.stmt 2 = .ok r ∧
          callsNextRow s.pager o.stmt (fun _ => .ok ()) 2 o.returned.length r =
            (o.returned, o.rows)) ∧
        (s.openRows ≠ [] →
          (∀ stmt : InsertStatement (Option ℤ) (List UInt8) Unit,
            stmt.execute literalEnv 2 s.refCount s.pager =
              (.error (.other "other statments running"), s.pager)) ∧
          ∀ stmt : DeleteStatement, stmt.execute (fun pager => pure (0, pager)) s.refCount
            s.pager = (.error (.other "other statments running"), s.pager))) :=
  have h : SessionReachable literalEnv (fun pager => pure (0, pager)) (fun _ => .ok ()) 2 _ :=
    .step (.insert insertNull) (.step (.nextRow 0)
      (.step (.query ⟨2, none, none, none, fun _ => .ok ()⟩) (.init twoLevelTable) rfl) rfl) rfl
  ⟨_, h, rfl, scan_isolation h⟩

end Session

end Prsqlite
