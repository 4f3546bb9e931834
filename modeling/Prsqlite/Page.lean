import Mathlib.Data.List.Basic

/-!
# Decoded B-tree Pages and the Pager

The cursor of `cursor.rs` reads its pages through the pager and the page-layout
decoders of `btree.rs` and `pager.rs`, neither of which is part of the source. This
module models both from the file-format description of the spec, at the level at which
the cursor consumes them: a page is the decoded B-tree header together with its cell
pointer array already resolved into the list of cells, in pointer order.

* `BtreePageType` is the tag byte: the four B-tree kinds of the file format, and every
  other byte, on which `is_table`, `is_index` and `is_leaf` are all false.
* `Cell` carries every field one of the four cell formats can hold: the left child of
  an interior cell, the rowid of a table cell, and the payload of a table-leaf or an
  index cell. Each decoder reads the fields its cell format has.
* `Pager` maps a page id to the page it holds, and fails `get_page` outside
  `1 ..= numPages`, as the spec's pager does for an id out of range.

The children of an interior page are numbered `0 ..= n`: child `i < n` is the left child
of cell `i`, and child `n` is the right child. `childPageId` is the selection the cursor
makes from `idx_cell`, and `childPageIds` lists all of them.
-/

namespace Prsqlite

/-- A page number of the database file; the first page is `1`. -/
abbrev PageId := ℕ

/-- Modelled from the spec: the tag byte of a B-tree page (`BtreePageType` of
`btree.rs`), `0x02`, `0x05`, `0x0A`, `0x0D`, or any other byte. -/
inductive BtreePageType
  | indexInterior
  | tableInterior
  | indexLeaf
  | tableLeaf
  | unknown (tag : UInt8)
  deriving DecidableEq, Repr

namespace BtreePageType

/-- Leaf pages are `0x0A` and `0x0D`. -/
def isLeaf : BtreePageType → Bool
  | indexLeaf | tableLeaf => true
  | _ => false

/-- Table pages are `0x05` and `0x0D`. -/
def isTable : BtreePageType → Bool
  | tableInterior | tableLeaf => true
  | _ => false

/-- Index pages are `0x02` and `0x0A`. -/
def isIndex : BtreePageType → Bool
  | indexInterior | indexLeaf => true
  | _ => false

/-- The leaf kind of the table trees (`index = false`) or the index trees. -/
def leaf (index : Bool) : BtreePageType := if index then indexLeaf else tableLeaf

/-- The interior kind of the table trees (`index = false`) or the index trees. -/
def interior (index : Bool) : BtreePageType := if index then indexInterior else tableInterior

@[simp] theorem isLeaf_leaf (index : Bool) : (leaf index).isLeaf = true := by
  cases index <;> rfl

@[simp] theorem isLeaf_interior (index : Bool) : (interior index).isLeaf = false := by
  cases index <;> rfl

@[simp] theorem isTable_leaf (index : Bool) : (leaf index).isTable = !index := by
  cases index <;> rfl

@[simp] theorem isTable_interior (index : Bool) : (interior index).isTable = !index := by
  cases index <;> rfl

@[simp] theorem isIndex_leaf (index : Bool) : (leaf index).isIndex = index := by
  cases index <;> rfl

@[simp] theorem isIndex_interior (index : Bool) : (interior index).isIndex = index := by
  cases index <;> rfl

end BtreePageType

/-- `PayloadInfo` of `btree.rs`: the total size of a cell's payload, the part of it
stored on the page itself, and the first overflow page of the rest. -/
structure PayloadInfo where
  payloadSize : ℕ
  localPayload : List UInt8
  overflow : Option PageId
  deriving DecidableEq, Repr

/-- A decoded cell. Table-interior cells use `leftChild` and `key`, table-leaf cells
`key` and `payload`, index-leaf cells `payload`, index-interior cells `leftChild` and
`payload`. -/
structure Cell where
  leftChild : PageId
  key : ℤ
  payload : PayloadInfo
  deriving DecidableEq, Repr

/-- Modelled from the spec: a decoded B-tree page (`BtreePageHeader` and the cell
pointer array of `btree.rs`). `cellContentArea` is the decoded offset, so `65536`
where the header stores `0`. -/
structure BtreePage where
  pageType : BtreePageType
  firstFreeblock : ℕ
  cellContentArea : ℕ
  fragmentedFreeBytes : ℕ
  rightPageId : PageId
  cells : List Cell
  deriving DecidableEq, Repr

namespace BtreePage

/-- The cell count `n_cells` of the page header. -/
def nCells (p : BtreePage) : ℕ := p.cells.length

/-- The child the cursor selects with `idx_cell = i`: the left child of cell `i` for
`i < n_cells`, the right child otherwise. -/
def childPageId (p : BtreePage) (i : ℕ) : PageId :=
  match p.cells[i]? with
  | some c => c.leftChild
  | none => p.rightPageId

/-- All children of an interior page, left to right. -/
def childPageIds (p : BtreePage) : List PageId :=
  p.cells.map Cell.leftChild ++ [p.rightPageId]

/-- `parse_btree_interior_cell_page_id`: the left child of cell `i`. -/
def interiorCellPageId (p : BtreePage) (i : ℕ) : Option PageId :=
  p.cells[i]?.map Cell.leftChild

/-- `TableCellKeyParser::get_cell_key`: the rowid of cell `i`. -/
def tableCellKey (p : BtreePage) (i : ℕ) : Option ℤ :=
  p.cells[i]?.map Cell.key

/-- `IndexCellKeyParser::get_cell_key`: the payload of cell `i`. -/
def indexCellKey (p : BtreePage) (i : ℕ) : Option PayloadInfo :=
  p.cells[i]?.map Cell.payload

/-- `parse_btree_leaf_table_cell`: the rowid and the payload of cell `i`. -/
def leafTableCell (p : BtreePage) (i : ℕ) : Option (ℤ × PayloadInfo) :=
  p.cells[i]?.map fun c => (c.key, c.payload)

/-- Below `n_cells`, the child selected is the left child of the cell. -/
theorem childPageId_of_lt {p : BtreePage} {i : ℕ} (h : i < p.nCells) :
    p.childPageId i = (p.cells.get ⟨i, h⟩).leftChild := by
  simp [childPageId, nCells] at h ⊢
  simp [List.getElem?_eq_getElem h]

/-- From `n_cells` on, it is the right child. -/
theorem childPageId_of_le {p : BtreePage} {i : ℕ} (h : p.nCells ≤ i) :
    p.childPageId i = p.rightPageId := by
  simp [childPageId, nCells] at h ⊢
  simp [List.getElem?_eq_none h]

/-- Every selectable child is one of the page's children. -/
theorem childPageId_mem (p : BtreePage) (i : ℕ) : p.childPageId i ∈ p.childPageIds := by
  rcases Nat.lt_or_ge i p.nCells with hi | hi
  · rw [childPageId_of_lt hi, childPageIds]
    exact List.mem_append_left _ (List.mem_map_of_mem _ (List.get_mem _ _ _))
  · rw [childPageId_of_le hi, childPageIds]
    simp

/-- An interior page lists one child per cell and the right child. -/
theorem length_childPageIds (p : BtreePage) : p.childPageIds.length = p.nCells + 1 := by
  simp [childPageIds, nCells]

/-- The `i`-th listed child is the child selected with `idx_cell = i`. -/
theorem getElem_childPageIds (p : BtreePage) {i : ℕ} (hi : i < p.childPageIds.length) :
    p.childPageIds[i] = p.childPageId i := by
  rw [length_childPageIds] at hi
  simp only [childPageIds, List.getElem_append, List.length_map]
  rcases Nat.lt_or_ge i p.nCells with hlt | hge
  · rw [childPageId_of_lt hlt]
    simp only [nCells] at hlt
    simp [hlt]
  · rw [childPageId_of_le hge]
    obtain rfl : i = p.cells.length := by simp only [nCells] at hge hi; omega
    simp

/-- The left child of an existing cell is the child it selects. -/
theorem interiorCellPageId_of_lt {p : BtreePage} {i : ℕ} (h : i < p.nCells) :
    p.interiorCellPageId i = some (p.childPageId i) := by
  simp [interiorCellPageId, childPageId_of_lt h, List.getElem?_eq_getElem h]

end BtreePage

/-- Modelled from the spec: the pager of `pager.rs`, a cache over a file of
`numPages` pages. `page pid` is the current content of page `pid` read as a B-tree page, and
`overflowPage pid` the same page read as an overflow page by `OverflowPage::parse`: the
part of a payload it holds and the next page of the chain, `none` where it does not parse.
`usableSize` is `BtreeContext::usable_size`, the bytes of a page that the B-tree uses, on
which the split of a payload between its cell and the overflow pages depends. -/
structure Pager where
  numPages : ℕ
  page : PageId → BtreePage
  overflowPage : PageId → Option (List UInt8 × Option PageId)
  usableSize : ℕ

namespace Pager

/-- `get_page` succeeds exactly on the ids of the file's pages. -/
def Valid (pager : Pager) (pid : PageId) : Prop := 1 ≤ pid ∧ pid ≤ pager.numPages

/-- Whether a page id is a page of the file can be computed. -/
instance (pager : Pager) (pid : PageId) : Decidable (pager.Valid pid) :=
  inferInstanceAs (Decidable (_ ∧ _))

end Pager

end Prsqlite
