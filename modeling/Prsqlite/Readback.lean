import Prsqlite.Insert
import Prsqlite.Payload

/-!
# Reading an Inserted Row Back

`insert(k, p)` on a table tree that does not hold the rowid `k` runs through when the leaf
`table_move_to(k)` ends on passes the checks `insert` makes itself: no freeblock, no
fragmented bytes, and room for the cell and its pointer between the cell pointer array
and the cell content area. The cell goes right below the old cell content area, its
pointer into the array at the lower bound of `k`, and the tree gains exactly the row.

What is read back is the cell as the decoder sees it (`leafCell`). A payload of at most
`usable_size - 35` bytes, the local limit of a table leaf, is read back whole, so
`table_move_to(k)` and `get_table_payload` return `k` with exactly `p`
(`insert_reads_back_of_le_maxLocal`). `insert` does not split a longer payload into
overflow pages, although the `TODO` before its checks says it should and its other
unsupported paths stop at a `todo!`: it writes the whole payload on the leaf, and the
decoder reads it cut at its local size, with four of its bytes taken for the page id of an
overflow page (`emptyLeafTable_insert_longPayload`).

The model holds a page as its decoded header and cells, not as bytes: where the new cell
lies is its cell content area offset, but that the cells do not overlap is a statement about
bytes it cannot make.

## Main results

* `allocateCell_ok`: the allocation passes its asserts once the leaf passes the checks.
* `tableMoveTo_getTablePayload`: on a table tree, seeking a rowid the table holds and
  reading the payload gives that row.
* `insert_reads_back`: `insert` returns, keeps a table tree, lays out the leaf, adds the
  row in key order, and the row is read back as the decoder reads the cell.
* `insert_reads_back_of_le_maxLocal`: within the local limit, the row added and read back
  is `(k, p)` itself.
* `emptyLeafTable_insert_longPayload`: past it, a payload that fits the free space is
  written whole and read back cut, and `load` fails.
-/

namespace Prsqlite

/-! ### The checks of `insert` -/

/-- A varint takes at least one byte. -/
theorem one_le_varintLen (v : ℕ) : 1 ≤ varintLen v := by
  unfold varintLen
  cases 8 with
  | zero => exact le_rfl
  | succ n => unfold varintLen.go; split <;> omega

/-- A cell takes at least two bytes, the varints of its size and of its rowid. -/
theorem two_le_cellSize (key : ℤ) (payload : List UInt8) : 2 ≤ cellSize key payload := by
  have := one_le_varintLen payload.length
  have := one_le_varintLen (i64ToU64 key)
  unfold cellSize
  omega

/-- A leaf with no freeblock, no fragmented bytes, room for the cell and its pointer, and its
cell content area within a `u16` page passes the checks and asserts of `insert`: the cell
goes right below the cell content area. -/
theorem allocateCell_ok {pid : PageId} {n : ℕ} {page : BtreePage} {key : ℤ}
    {payload : List UInt8} (hfree : page.firstFreeblock = 0 ∧ page.fragmentedFreeBytes = 0)
    (hroom : cellPointerOffset pid n page.headerSize + cellSize key payload + 2 ≤
      page.cellContentArea)
    (hcca : page.cellContentArea ≤ 65536) :
    allocateCell pid n page (cellSize key payload) =
      .ok (page.cellContentArea - cellSize key payload) := by
  have := two_le_cellSize key payload
  simp only [allocateCell]
  split_ifs <;> first | rfl | omega

/-! ### Seek, then read -/

section Seek

variable {pager : Pager} {H fuel : ℕ} {root : PageId} {s : BtreeCursor}

/-- **Seek, then read.** On a table tree, from a correct root frame and with fuel for its
height, `table_move_to` of a rowid the table holds returns it, and `get_table_payload`
then reads that row. -/
theorem tableMoveTo_getTablePayload (ht : TableTree pager H root) (hr : RootOk pager root s)
    (hfuel : H ≤ fuel) {c : Cell} (hc : c ∈ pager.cellsInOrder false H root) :
    ∃ s', tableMoveTo pager fuel c.key s = .ok (some c.key) s' ∧
      getTablePayload pager s' = .ok (some (c.key, c.payload)) := by
  obtain ⟨a, s', hrun, hread⟩ :=
    tableMoveTo_getTablePayload_eq c.key ht.subtree ht.ordered hr hfuel
  have hsome := (tableMoveTo_eq_some_iff ht.subtree ht.ordered hr hfuel hrun).2
    (List.mem_map_of_mem _ hc)
  exact ⟨s', hsome ▸ hrun,
    hread.trans (congrArg _ (leafTableCell_lowerBound_of_mem ht.subtree ht.ordered hc))⟩

end Seek

/-! ### `insert` -/

section Insert

variable {pager : Pager} {H fuel : ℕ} {root : PageId} {s : BtreeCursor} {key : ℤ}
  {payload : List UInt8}

/-- When the leaf passes the checks, `insert` of a new rowid writes the leaf with its cell
content area lowered by the cell and the cell at the lower bound of the rowid. -/
theorem insert_eq (ht : TableTree pager H root) (hr : RootOk pager root s) (hfuel : H ≤ fuel)
    (hk : key ∉ (pager.cellsInOrder false H root).map Cell.key)
    (hfree : (pager.page (pager.leafFor key H root)).firstFreeblock = 0 ∧
      (pager.page (pager.leafFor key H root)).fragmentedFreeBytes = 0)
    (hroom : cellPointerOffset (pager.leafFor key H root)
        (pager.page (pager.leafFor key H root)).nCells
        (pager.page (pager.leafFor key H root)).headerSize + cellSize key payload + 2 ≤
      (pager.page (pager.leafFor key H root)).cellContentArea)
    (hcca : (pager.page (pager.leafFor key H root)).cellContentArea ≤ 65536) :
    ∃ s', insert pager fuel key payload s = .ok (pager.set (pager.leafFor key H root)
      { pager.page (pager.leafFor key H root) with
        cellContentArea :=
          (pager.page (pager.leafFor key H root)).cellContentArea - cellSize key payload
        cells := (pager.page (pager.leafFor key H root)).cells.insertIdx
          ((pager.page (pager.leafFor key H root)).lowerBound key)
          (leafCell pager.usableSize key payload) }) s' := by
  obtain ⟨s₁, hrun, hcur, -⟩ := tableMoveTo_spec key ht.subtree ht.ordered hr hfuel
  have hne := mt (tableMoveTo_eq_some_iff ht.subtree ht.ordered hr hfuel hrun).1 hk
  refine ⟨{ s₁ with
    currentPage := { s₁.currentPage with nCells := s₁.currentPage.nCells + 1 } }, ?_⟩
  simp only [insert, writeCell, EStateM.bind_apply, hrun, if_neg hne, EStateM.get_apply, hcur,
    CursorPage.new, allocateCell_ok hfree hroom hcca, liftExcept_ok, EStateM.modify_apply,
    EStateM.pure_apply, insertIdx_of_tableCellKey (BtreePage.lowerBound_le _ key)]

/-- **`insert` and what is read back.** On a table tree without the rowid `key`, from a
correct root frame and with fuel for the tree's height: if the leaf `table_move_to(key)`
ends on has no freeblock and no fragmented bytes, and room for the cell and its pointer,
then `insert` returns `Ok` and

* the pager holds a table tree on the same pages, and the cursor a correct root frame;
* the leaf has one cell more, its rowids ascend, its cell content area is lowered by the
  cell's size, and its cell pointer array ends at or before the new cell;
* the rows of the tree are the old ones and the cell `leafCell` reads back, in key order;
* from any correct root frame, `table_move_to(key)` returns `key` and `get_table_payload`
  reads that cell's payload, which for a payload within the local limit of the leaf is the
  whole payload, with no overflow page, and `load` reads it byte for byte. -/
theorem insert_reads_back (ht : TableTree pager H root) (hr : RootOk pager root s)
    (hfuel : H ≤ fuel) (hk : key ∉ (pager.cellsInOrder false H root).map Cell.key)
    (hfree : (pager.page (pager.leafFor key H root)).firstFreeblock = 0 ∧
      (pager.page (pager.leafFor key H root)).fragmentedFreeBytes = 0)
    (hroom : cellPointerOffset (pager.leafFor key H root)
        (pager.page (pager.leafFor key H root)).nCells
        (pager.page (pager.leafFor key H root)).headerSize + cellSize key payload + 2 ≤
      (pager.page (pager.leafFor key H root)).cellContentArea)
    (hcca : (pager.page (pager.leafFor key H root)).cellContentArea ≤ 65536) :
    ∃ pager' s', insert pager fuel key payload s = .ok pager' s' ∧
      TableTree pager' H root ∧ RootOk pager' root s' ∧
      pager'.treePages H root = pager.treePages H root ∧
      ((pager'.page (pager.leafFor key H root)).nCells =
          (pager.page (pager.leafFor key H root)).nCells + 1 ∧
        ((pager'.page (pager.leafFor key H root)).cells.map Cell.key).Sorted (· < ·) ∧
        (pager'.page (pager.leafFor key H root)).cellContentArea + cellSize key payload =
          (pager.page (pager.leafFor key H root)).cellContentArea ∧
        cellPointerOffset (pager.leafFor key H root)
            (pager'.page (pager.leafFor key H root)).nCells
            (pager'.page (pager.leafFor key H root)).headerSize ≤
          (pager'.page (pager.leafFor key H root)).cellContentArea) ∧
      (pager'.cellsInOrder false H root).Perm
        (pager.cellsInOrder false H root ++ [leafCell pager.usableSize key payload]) ∧
      ((pager'.cellsInOrder false H root).map Cell.key).Sorted (· < ·) ∧
      ∀ t, RootOk pager' root t → ∃ t', tableMoveTo pager' fuel key t = .ok (some key) t' ∧
        getTablePayload pager' t' =
          .ok (some (key, (leafCell pager.usableSize key payload).payload)) ∧
        (payload.length ≤ maxLocal pager.usableSize →
          (leafCell pager.usableSize key payload).payload = ⟨payload.length, payload, none⟩ ∧
          ∀ (offset : ℕ) (buf : List UInt8), offset < payload.length →
            BtreePayload.load pager' ⟨payload.length, payload, none⟩ offset 1 buf =
              .ok (min buf.length (payload.length - offset))
                ((payload.drop offset).take (min buf.length (payload.length - offset)) ++
                  buf.drop (min buf.length (payload.length - offset)))) := by
  obtain ⟨s', hins⟩ := insert_eq ht hr hfuel hk hfree hroom hcca
  obtain ⟨ht', hr', hpages, -, hperm⟩ := insert_spec ht hr hfuel hk hins
  obtain ⟨-, hsorted, hsub⟩ := Pager.leafFor_spec key ht.subtree ht.ordered
  have hmem : leafCell pager.usableSize key payload ∈ _ :=
    hperm.symm.subset (List.mem_append_right _ (List.mem_singleton_self _))
  refine ⟨_, s', hins, ht', hr', hpages, ⟨?_, ?_, ?_, ?_⟩, hperm,
    Pager.sorted_cellsInOrder ht'.subtree ht'.ordered, fun t ht => ?_⟩
  · simp [BtreePage.nCells, List.length_insertIdx _ _ (BtreePage.lowerBound_le _ key)]
  · have hkl : key ∉ (pager.page (pager.leafFor key H root)).cells.map Cell.key := fun hk' => by
      obtain ⟨c, hc, hck⟩ := List.mem_map.1 hk'
      exact hk (hck ▸ List.mem_map_of_mem _ (hsub c hc))
    simpa using BtreePage.sorted_insertIdx (leafCell_key pager.usableSize key payload) hsorted hkl
  · simp only [Pager.set_page_self]
    omega
  · simp only [Pager.set_page_self, BtreePage.nCells,
      List.length_insertIdx _ _ (BtreePage.lowerBound_le _ key)]
    simp only [cellPointerOffset, BtreePage.headerSize, BtreePage.nCells] at hroom ⊢
    omega
  · obtain ⟨t', hrun, hpay⟩ := tableMoveTo_getTablePayload ht' ht hfuel hmem
    rw [leafCell_key] at hrun hpay
    refine ⟨t', hrun, hpay, fun hl => ⟨by rw [leafCell_of_le hl], fun offset buf ho => ?_⟩⟩
    refine (BtreePayload.load_eq_ok (.nil none) ?_ Nat.zero_lt_one ho buf).trans ?_ <;> simp

/-- **`insert` of a payload within the local limit.** On a table tree without the rowid
`key`, from a correct root frame and with fuel for the tree's height, a payload of at most
`usable_size - 35` bytes whose cell passes the checks of `insert` on its leaf: `insert`
returns `Ok`, the pager holds a table tree on the same pages, the leaf is laid out as
`insert_reads_back` says, the rows are the old ones and `(key, payload)`, in key order, and
from any correct root frame `table_move_to(key)` returns `key` and `get_table_payload` a
payload of size `|payload|` whose local part is `payload`, with no overflow page, which
`load` reads byte for byte. -/
theorem insert_reads_back_of_le_maxLocal (ht : TableTree pager H root) (hr : RootOk pager root s)
    (hfuel : H ≤ fuel) (hk : key ∉ (pager.cellsInOrder false H root).map Cell.key)
    (hfree : (pager.page (pager.leafFor key H root)).firstFreeblock = 0 ∧
      (pager.page (pager.leafFor key H root)).fragmentedFreeBytes = 0)
    (hroom : cellPointerOffset (pager.leafFor key H root)
        (pager.page (pager.leafFor key H root)).nCells
        (pager.page (pager.leafFor key H root)).headerSize + cellSize key payload + 2 ≤
      (pager.page (pager.leafFor key H root)).cellContentArea)
    (hcca : (pager.page (pager.leafFor key H root)).cellContentArea ≤ 65536)
    (hl : payload.length ≤ maxLocal pager.usableSize) :
    ∃ pager' s', insert pager fuel key payload s = .ok pager' s' ∧
      TableTree pager' H root ∧ RootOk pager' root s' ∧
      pager'.treePages H root = pager.treePages H root ∧
      ((pager'.page (pager.leafFor key H root)).nCells =
          (pager.page (pager.leafFor key H root)).nCells + 1 ∧
        ((pager'.page (pager.leafFor key H root)).cells.map Cell.key).Sorted (· < ·) ∧
        (pager'.page (pager.leafFor key H root)).cellContentArea + cellSize key payload =
          (pager.page (pager.leafFor key H root)).cellContentArea ∧
        cellPointerOffset (pager.leafFor key H root)
            (pager'.page (pager.leafFor key H root)).nCells
            (pager'.page (pager.leafFor key H root)).headerSize ≤
          (pager'.page (pager.leafFor key H root)).cellContentArea) ∧
      (pager'.cellsInOrder false H root).Perm
        (pager.cellsInOrder false H root ++ [⟨0, key, ⟨payload.length, payload, none⟩⟩]) ∧
      ((pager'.cellsInOrder false H root).map Cell.key).Sorted (· < ·) ∧
      ∀ t, RootOk pager' root t → ∃ t', tableMoveTo pager' fuel key t = .ok (some key) t' ∧
        getTablePayload pager' t' = .ok (some (key, ⟨payload.length, payload, none⟩)) ∧
        BtreePayload.size ⟨payload.length, payload, none⟩ = payload.length ∧
        BtreePayload.buf ⟨payload.length, payload, none⟩ = payload ∧
        ∀ (offset : ℕ) (buf : List UInt8), offset < payload.length →
          BtreePayload.load pager' ⟨payload.length, payload, none⟩ offset 1 buf =
            .ok (min buf.length (payload.length - offset))
              ((payload.drop offset).take (min buf.length (payload.length - offset)) ++
                buf.drop (min buf.length (payload.length - offset))) := by
  obtain ⟨pager', s', hins, ht', hr', hpages, hleaf, hperm, hsorted, hread⟩ :=
    insert_reads_back ht hr hfuel hk hfree hroom hcca
  rw [leafCell_of_le hl] at hperm hread
  refine ⟨pager', s', hins, ht', hr', hpages, hleaf, hperm, hsorted, fun t ht => ?_⟩
  obtain ⟨t', hrun, hpay, hload⟩ := hread t ht
  exact ⟨t', hrun, hpay, rfl, rfl, (hload hl).2⟩

end Insert

/-- A table of no rows: its root, page 2, is an empty leaf of a file of 512 usable bytes. -/
def emptyLeafTable : Pager where
  numPages := 2
  page _ := ⟨.tableLeaf, 0, 512, 0, 0, []⟩
  overflowPage _ := none
  usableSize := 512

/-- On `emptyLeafTable`, `insert` of the row `1` with the payload `[2, 1, 1]` from a fresh
cursor runs through, and from a fresh cursor the row is read back. -/
theorem emptyLeafTable_insert_reads_back :
    TableTree emptyLeafTable 1 2 ∧ ∃ pager' s',
      insert emptyLeafTable 1 1 [2, 1, 1] ⟨CursorPage.new emptyLeafTable 2, [], false⟩ =
        .ok pager' s' ∧ TableTree pager' 1 2 ∧
      ∃ t', tableMoveTo pager' 1 1 ⟨CursorPage.new pager' 2, [], false⟩ = .ok (some 1) t' ∧
        getTablePayload pager' t' = .ok (some (1, ⟨3, [2, 1, 1], none⟩)) := by
  have ht : TableTree emptyLeafTable 1 2 := ⟨by decide, by decide, by decide, by decide⟩
  obtain ⟨pager', s', h, ht', -, -, -, -, -, hread⟩ := insert_reads_back_of_le_maxLocal ht
    (show RootOk emptyLeafTable 2 ⟨CursorPage.new emptyLeafTable 2, [], false⟩ from
      ⟨rfl, frameOk_new _ _⟩)
    le_rfl (show (1 : ℤ) ∉ _ by decide) ⟨rfl, rfl⟩
    (show _ + cellSize 1 [2, 1, 1] + 2 ≤ _ by decide) (by decide)
    (show [2, 1, 1].length ≤ maxLocal 512 by decide)
  obtain ⟨t', hrun, hpay, -⟩ := hread ⟨CursorPage.new pager' 2, [], false⟩ ⟨rfl, frameOk_new _ _⟩
  exact ⟨ht, pager', s', h, ht', t', hrun, hpay⟩

/-- `478` bytes `0xff`: one more than `512 - 35`, the local limit of a table leaf of
`emptyLeafTable`, and few enough for its free space. -/
def longPayload : List UInt8 := List.replicate 478 255

set_option maxRecDepth 4000 in
/-- On `emptyLeafTable`, `insert` of the row `1` with `longPayload` passes its checks and
returns `Ok`, but the row is read back cut to its first `39` bytes, the local size of a
payload of `478` bytes, with the next four bytes `0xff` taken for the page id of an overflow
page, which the file does not have: `load` of the whole payload fails. -/
theorem emptyLeafTable_insert_longPayload :
    TableTree emptyLeafTable 1 2 ∧ (1 : ℤ) ∉ (emptyLeafTable.cellsInOrder false 1 2).map Cell.key ∧
    cellPointerOffset 2 0 8 + cellSize 1 longPayload + 2 ≤ 512 ∧
    ∃ pager' s',
      insert emptyLeafTable 1 1 longPayload ⟨CursorPage.new emptyLeafTable 2, [], false⟩ =
        .ok pager' s' ∧
      ∃ t', tableMoveTo pager' 1 1 ⟨CursorPage.new pager' 2, [], false⟩ = .ok (some 1) t' ∧
        getTablePayload pager' t' =
          .ok (some (1, ⟨478, longPayload.take 39, some 4294967295⟩)) ∧
        BtreePayload.load pager' ⟨478, longPayload.take 39, some 4294967295⟩ 0 2
            (List.replicate 478 0) =
          .error (.pager 4294967295) (List.replicate 39 255 ++ List.replicate 439 0) :=
  ⟨⟨by decide, by decide, by decide, by decide⟩, by decide, by decide, _, _, rfl, _, rfl, rfl, rfl⟩

end Prsqlite
