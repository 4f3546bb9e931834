import Mathlib.Data.List.InsertIdx
import Prsqlite.Payload
import Prsqlite.TableSeek

/-!
# Inserting a Row

`BtreeCursor::insert(key, payload)` adds a row to a table tree in place. `table_move_to`
finds the leaf and the position, and the cell is written into the free space of that
leaf, its pointer inserted at `idx_cell`. Nothing is balanced: a row that does not fit
panics in `todo!("balance the btree")`, and so does a rowid that is already present
(`todo!("update the payload")`).

The page-layout helpers it calls (`cell_pointer_offset`, `header_size`, `put_varint`,
`i64_to_u64`) are not part of the source and are modelled from the spec. `Pager.set` is
the write through `make_page_mut`, which succeeds under the spec's precondition that one
cursor only works on a tree that is written to. The cell is modelled as the decoder reads
back the bytes `insert` writes, the whole payload after the cell header (`leafCell`): whole
up to the local limit of a table leaf, and beyond it cut at the local size, with four bytes
of the payload read as the page id of an overflow page. The decoder's local-size rule is
modelled from the spec.

A write changes what a tree holds only through the pages the tree reaches: `treePages`
lists them, and every read of the tree is the same on a pager that agrees with it there
(`cellsInOrder_congr`, `Subtree.congr`, `TableOrdered.congr`). That is also how the
writes of the index insertions of an `INSERT` are kept apart from its table. A write
confined to the tree of one child of an interior page (`Pager.WritesBelow`) keeps the page
well formed and ordered as soon as it keeps that child's tree so.

## Main results

* `TableTree`: a well-formed ordered table tree whose pages form a tree, and whose root is
  a leaf or holds a cell.
* `Pager.insertRow_spec`: writing a new row into the leaf the descent for its rowid ends
  on, at the lower bound, keeps the tree well formed and ordered and adds exactly that
  row.
* `insert_spec`: a successful `insert` of a new rowid does so, and keeps the root frame.
-/

namespace Prsqlite

/-! ### Page writes and their frame -/

namespace Pager

variable (pager : Pager)

/-- The pager after page `pid` is overwritten with the B-tree page `p`. No overflow page is
written, and the usable size is the file's. -/
def set (pid : PageId) (p : BtreePage) : Pager where
  numPages := pager.numPages
  page q := if q = pid then p else pager.page q
  overflowPage := pager.overflowPage
  usableSize := pager.usableSize

/-- The pages of the tree at `pid` of height at most `h`, depth first. -/
def treePages : ℕ → PageId → List PageId
  | 0, _ => []
  | h + 1, pid => pid :: if (pager.page pid).pageType.isLeaf then []
      else (pager.page pid).childPageIds.flatMap (treePages h)

/-- `pager'` reads the pages `pids` as `pager` does, with the same usable size, and keeps
them in its file. -/
def AgreesOn (pager' : Pager) (pids : List PageId) : Prop :=
  pager'.usableSize = pager.usableSize ∧
    ∀ pid ∈ pids, pager'.page pid = pager.page pid ∧ (pager.Valid pid → pager'.Valid pid)

variable {pager} {pager' : Pager} {index : Bool} {h : ℕ} {pid q : PageId} {p : BtreePage}

@[simp] theorem set_page_self : (pager.set pid p).page pid = p := if_pos rfl

@[simp] theorem set_page_of_ne (hq : q ≠ pid) : (pager.set pid p).page q = pager.page q :=
  if_neg hq

@[simp] theorem set_valid : (pager.set pid p).Valid q ↔ pager.Valid q := Iff.rfl

/-- A pager agrees with itself on any pages. -/
theorem AgreesOn.refl (pids : List PageId) : pager.AgreesOn pager pids :=
  ⟨rfl, fun _ _ => ⟨rfl, id⟩⟩

/-- Agreement on the same pages chains. -/
theorem AgreesOn.trans {pager'' : Pager} {pids : List PageId} (h₁ : pager.AgreesOn pager' pids)
    (h₂ : pager'.AgreesOn pager'' pids) : pager.AgreesOn pager'' pids :=
  ⟨h₂.1.trans h₁.1, fun q hq =>
    ⟨(h₂.2 q hq).1.trans (h₁.2 q hq).1, fun hv => (h₂.2 q hq).2 ((h₁.2 q hq).2 hv)⟩⟩

/-- Writing a page outside a tree leaves the tree's pages as they were. -/
theorem AgreesOn.set (hq : pid ∉ pager.treePages h q) :
    pager.AgreesOn (pager.set pid p) (pager.treePages h q) :=
  ⟨rfl, fun _ hr => ⟨set_page_of_ne fun he => hq (he ▸ hr), id⟩⟩

/-- A tree's root is one of its pages. -/
theorem self_mem_treePages (hpos : 0 < h) : pid ∈ pager.treePages h pid := by
  obtain ⟨h, rfl⟩ : ∃ h', h = h' + 1 := ⟨h - 1, by omega⟩
  exact List.mem_cons_self _ _

/-- The pages of a child's tree are pages of the parent's tree. -/
theorem mem_treePages_child {c : PageId} (hl : (pager.page pid).pageType.isLeaf = false)
    (hc : c ∈ (pager.page pid).childPageIds) (hq : q ∈ pager.treePages h c) :
    q ∈ pager.treePages (h + 1) pid := by
  rw [treePages, if_neg (by simp [hl])]
  exact List.mem_cons_of_mem _ (List.mem_flatMap.2 ⟨c, hc, hq⟩)

/-- Agreement on a tree is agreement on the tree under each child of its root. -/
theorem AgreesOn.child {c : PageId} (ha : pager.AgreesOn pager' (pager.treePages (h + 1) pid))
    (hl : (pager.page pid).pageType.isLeaf = false) (hc : c ∈ (pager.page pid).childPageIds) :
    pager.AgreesOn pager' (pager.treePages h c) :=
  ⟨ha.1, fun _ hq => ha.2 _ (mem_treePages_child hl hc hq)⟩

/-! ### Reads of a tree depend only on its pages -/

/-- Pagers that agree on a tree's pages give it the same pages. -/
theorem treePages_congr : ∀ {h : ℕ} {pid : PageId},
    pager.AgreesOn pager' (pager.treePages h pid) →
    pager'.treePages h pid = pager.treePages h pid
  | 0, _, _ => rfl
  | h + 1, pid, ha => by
    have hp := (ha.2 pid (List.mem_cons_self _ _)).1
    rcases hl : (pager.page pid).pageType.isLeaf with _ | _
    · simp only [treePages, hp, hl, Bool.false_eq_true, if_false]
      exact congrArg _ (List.flatMap_congr fun c hc => treePages_congr (ha.child hl hc))
    · simp [treePages, hp, hl]

/-- Pagers that agree on a tree's pages give it the same contents. -/
theorem cellsInOrder_congr : ∀ {h : ℕ} {pid : PageId},
    pager.AgreesOn pager' (pager.treePages h pid) →
    pager'.cellsInOrder index h pid = pager.cellsInOrder index h pid
  | 0, _, _ => rfl
  | h + 1, pid, ha => by
    have hp := (ha.2 pid (List.mem_cons_self _ _)).1
    rcases hl : (pager.page pid).pageType.isLeaf with _ | _
    · rw [cellsInOrder_succ_of_not_isLeaf (hp ▸ hl), cellsInOrder_succ_of_not_isLeaf hl, hp]
      exact contentsFrom_congr 0 fun c hc => cellsInOrder_congr (ha.child hl hc)
    · rw [cellsInOrder_succ_of_isLeaf (hp ▸ hl), cellsInOrder_succ_of_isLeaf hl, hp]

/-- A well-formed tree stays one on a pager that agrees on its pages. -/
theorem Subtree.congr : ∀ {h : ℕ} {pid : PageId},
    pager.AgreesOn pager' (pager.treePages h pid) → pager.Subtree index h pid →
    pager'.Subtree index h pid
  | 0, _, _, hs => hs.elim
  | h + 1, pid, ha, hs => by
    obtain ⟨hp, hv⟩ := ha.2 pid (List.mem_cons_self _ _)
    refine ⟨hv hs.1, ?_⟩
    rw [hp]
    refine hs.2.imp id fun ⟨ht, hc⟩ => ⟨ht, fun c hc' => ?_⟩
    have hl : (pager.page pid).pageType.isLeaf = false := by simp [ht]
    have hac := ha.child hl hc'
    exact ⟨(hc c hc').1.congr hac, (hac.2 c (self_mem_treePages (hc c hc').1.pos)).1 ▸ (hc c hc').2⟩

/-- An ordered table tree stays one on a pager that agrees on its pages. -/
theorem TableOrdered.congr : ∀ {h : ℕ} {pid : PageId},
    pager.AgreesOn pager' (pager.treePages h pid) → pager.TableOrdered h pid →
    pager'.TableOrdered h pid
  | 0, _, _, _ => trivial
  | h + 1, pid, ha, ho => by
    have hp := (ha.2 pid (List.mem_cons_self _ _)).1
    refine ⟨hp ▸ ho.1, fun hl => ?_⟩
    rw [hp] at hl ⊢
    obtain ⟨hchild, hsep⟩ := ho.2 hl
    have hin : ∀ c ∈ (pager.page pid).childPageIds,
        pager'.cellsInOrder false h c = pager.cellsInOrder false h c :=
      fun c hc => cellsInOrder_congr (ha.child hl hc)
    refine ⟨fun c hc => (hchild c hc).congr (ha.child hl hc), fun i hi => ?_⟩
    rw [hin _ (BtreePage.childPageId_mem _ i), contentsFrom_congr _ hin]
    exact hsep i hi

/-! ### Trees of distinct pages -/

/-- Every listed child of a page is the child of some `idx_cell ≤ n_cells`. -/
theorem childPageId_of_mem_childPageIds {c : PageId} (hc : c ∈ p.childPageIds) :
    ∃ m ≤ p.nCells, p.childPageId m = c := by
  obtain ⟨m, hm, rfl⟩ := List.getElem_of_mem hc
  exact ⟨m, by rw [BtreePage.length_childPageIds] at hm; omega, (p.getElem_childPageIds hm).symm⟩

section Distinct

variable (hn : (pager.treePages (h + 1) pid).Nodup)
  (hl : (pager.page pid).pageType.isLeaf = false)
include hn hl

/-- The pages of the tree under a child of the root are distinct too. -/
theorem nodup_treePages_child {c : PageId} (hc : c ∈ (pager.page pid).childPageIds) :
    (pager.treePages h c).Nodup := by
  rw [treePages, if_neg (by simp [hl]), List.nodup_cons, List.nodup_flatMap] at hn
  exact hn.2.1 c hc

/-- The root of a tree of distinct pages is no page of the tree under one of its children. -/
theorem not_mem_treePages_child {c : PageId} (hc : c ∈ (pager.page pid).childPageIds) :
    pid ∉ pager.treePages h c := by
  rw [treePages, if_neg (by simp [hl]), List.nodup_cons] at hn
  exact fun h' => hn.1 (List.mem_flatMap.2 ⟨c, hc, h'⟩)

/-- Two different children of a page of a tree have disjoint trees. -/
theorem disjoint_treePages_children {m m' : ℕ} (hm : m ≤ (pager.page pid).nCells)
    (hm' : m' ≤ (pager.page pid).nCells) (hne : m ≠ m') :
    (pager.treePages h ((pager.page pid).childPageId m)).Disjoint
      (pager.treePages h ((pager.page pid).childPageId m')) := by
  rw [treePages, if_neg (by simp [hl]), List.nodup_cons, List.nodup_flatMap] at hn
  have hpw := List.pairwise_iff_getElem.1 hn.2.2
  have hlen := (pager.page pid).length_childPageIds
  have hd : ∀ i j, i ≤ (pager.page pid).nCells → j ≤ (pager.page pid).nCells → i < j →
      (pager.treePages h ((pager.page pid).childPageId i)).Disjoint
        (pager.treePages h ((pager.page pid).childPageId j)) := fun i j hi hj hij => by
    have := hpw i j (by omega) (by omega) hij
    rwa [Function.onFun_apply, BtreePage.getElem_childPageIds,
      BtreePage.getElem_childPageIds] at this
  rcases Nat.lt_or_gt_of_ne hne with h' | h'
  · exact hd m m' hm hm' h'
  · exact List.disjoint_symm (hd m' m hm' hm h')

end Distinct

variable {key : ℤ}

/-- The leaf of the descent is one of the tree's pages. -/
theorem leafFor_mem_treePages (key : ℤ) : ∀ {h : ℕ} {pid : PageId}, pager.Subtree false h pid →
    pager.leafFor key h pid ∈ pager.treePages h pid
  | 0, _, hs => hs.elim
  | h + 1, pid, hs => by
    rcases hl : (pager.page pid).pageType.isLeaf with _ | _
    · rw [leafFor_succ_of_not_isLeaf hl]
      exact mem_treePages_child hl (BtreePage.childPageId_mem _ _)
        (leafFor_mem_treePages key (hs.child hl _).1)
    · rw [leafFor_succ_of_isLeaf hl]
      exact List.mem_cons_self _ _

/-- Rewriting a leaf with a leaf leaves the pages of every tree as they are. -/
theorem treePages_set_leaf {l : PageId} (hl : (pager.page l).pageType.isLeaf)
    (hp : p.pageType.isLeaf) : ∀ {h : ℕ} {pid : PageId},
    (pager.set l p).treePages h pid = pager.treePages h pid
  | 0, _ => rfl
  | h + 1, pid => by
    by_cases he : pid = l
    · subst he
      simp [treePages, hl, hp]
    · simp only [treePages, set_page_of_ne he]
      congr 2
      exact List.flatMap_congr fun _ _ => treePages_set_leaf hl hp

/-! ### Writes below one child -/

/-- `pager'` differs from `pager` under page `pid` only in the tree of its child `j`: `pid`
and the trees of its other children are as they were. -/
structure WritesBelow (pager pager' : Pager) (h : ℕ) (pid : PageId) (j : ℕ) : Prop where
  page : pager'.page pid = pager.page pid
  valid : pager.Valid pid → pager'.Valid pid
  others : ∀ m ≤ (pager.page pid).nCells, m ≠ j →
    pager.AgreesOn pager' (pager.treePages h ((pager.page pid).childPageId m))

namespace WritesBelow

variable {j : ℕ} {c : Cell}

/-- In a tree of distinct pages, a write of a page of the tree of child `j` is one. -/
theorem of_set (hn : (pager.treePages (h + 1) pid).Nodup)
    (hl : (pager.page pid).pageType.isLeaf = false) (hj : j ≤ (pager.page pid).nCells)
    {l : PageId} (hlj : l ∈ pager.treePages h ((pager.page pid).childPageId j)) (p : BtreePage) :
    WritesBelow pager (pager.set l p) h pid j where
  page := set_page_of_ne fun he =>
    not_mem_treePages_child hn hl (BtreePage.childPageId_mem _ j) (he ▸ hlj)
  valid := id
  others _ hm hmj := AgreesOn.set fun hl' => disjoint_treePages_children hn hl hm hj hmj hl' hlj

variable (hw : WritesBelow pager pager' h pid j)
  (hM : ∀ r, r ∈ pager'.cellsInOrder false h ((pager.page pid).childPageId j) ↔
    r ∈ pager.cellsInOrder false h ((pager.page pid).childPageId j) ∨ r = c)
include hw

include hM in
/-- The rows below each child: below child `j` the row `c` is added, the others keep theirs. -/
theorem mem_child {m : ℕ} (hm : m ≤ (pager.page pid).nCells) (r : Cell) :
    r ∈ pager'.cellsInOrder false h ((pager.page pid).childPageId m) ↔
      r ∈ pager.cellsInOrder false h ((pager.page pid).childPageId m) ∨ (m = j ∧ r = c) := by
  by_cases hmj : m = j
  · subst hmj
    simp [hM]
  · rw [cellsInOrder_congr (hw.others m hm hmj)]
    simp [hmj]

/-- The tree stays well formed when the tree of child `j` does and its root keeps a cell. -/
theorem subtree (hs : pager.Subtree false (h + 1) pid)
    (hl : (pager.page pid).pageType.isLeaf = false)
    (hS : pager'.Subtree false h ((pager.page pid).childPageId j))
    (hne : (pager'.page ((pager.page pid).childPageId j)).cells ≠ []) :
    pager'.Subtree false (h + 1) pid := by
  refine ⟨hw.valid hs.1, ?_⟩
  rw [hw.page]
  refine Or.inr ⟨(hs.2.resolve_left fun ht => by simp [ht] at hl).1, fun c' hc' => ?_⟩
  obtain ⟨m, hm, rfl⟩ := childPageId_of_mem_childPageIds hc'
  by_cases hmj : m = j
  · subst hmj
    exact ⟨hS, hne⟩
  · have hsm := hs.child hl m
    refine ⟨hsm.1.congr (hw.others m hm hmj), ?_⟩
    rw [((hw.others m hm hmj).2 _ (self_mem_treePages hsm.1.pos)).1]
    exact hsm.2

include hM in
/-- The tree stays ordered when the tree of child `j` does and `c` belongs there: `j` is the
lower bound of its rowid among the separators. -/
theorem tableOrdered (ho : pager.TableOrdered (h + 1) pid)
    (hl : (pager.page pid).pageType.isLeaf = false)
    (hO : pager'.TableOrdered h ((pager.page pid).childPageId j))
    (hj : j = (pager.page pid).lowerBound c.key) :
    pager'.TableOrdered (h + 1) pid := by
  obtain ⟨hchild, hsep⟩ := ho.2 hl
  refine ⟨hw.page ▸ ho.1, fun hl' => ?_⟩
  rw [hw.page] at hl' ⊢
  refine ⟨fun c' hc' => ?_, fun i hi => ⟨fun r hr => ?_, fun r hr => ?_⟩⟩
  · obtain ⟨m, hm, rfl⟩ := childPageId_of_mem_childPageIds hc'
    by_cases hmj : m = j
    · subst hmj
      exact hO
    · exact (hchild _ hc').congr (hw.others m hm hmj)
  · -- below separator `i`: the rows of child `i`, and `c` when `i` is the lower bound
    rcases (hw.mem_child hM hi.le r).1 hr with hr | ⟨rfl, rfl⟩
    · exact (hsep i hi).1 r hr
    · exact BtreePage.le_key_of_lowerBound_le ho.1 hi hj.ge
  · -- above separator `i`: the rows right of it, and `c` when `i` is below the lower bound
    obtain ⟨m, him, hm, hr⟩ := (mem_contentsFrom_iff hi).1 hr
    rcases (hw.mem_child hM hm r).1 hr with hr | ⟨rfl, rfl⟩
    · exact (hsep i hi).2 r ((mem_contentsFrom_iff hi).2 ⟨m, him, hm, hr⟩)
    · exact BtreePage.key_lt_of_lt_lowerBound hi (hj ▸ him)

include hM in
/-- The rows of the tree are its old ones and `c`. -/
theorem mem_cellsInOrder (hl : (pager.page pid).pageType.isLeaf = false)
    (hj : j ≤ (pager.page pid).nCells) (r : Cell) :
    r ∈ pager'.cellsInOrder false (h + 1) pid ↔
      r ∈ pager.cellsInOrder false (h + 1) pid ∨ r = c := by
  rw [cellsInOrder_succ_of_not_isLeaf (hw.page ▸ hl), cellsInOrder_succ_of_not_isLeaf hl, hw.page,
    mem_contentsFrom_iff (Nat.zero_le _), mem_contentsFrom_iff (Nat.zero_le _)]
  constructor
  · rintro ⟨m, -, hm, hr⟩
    rcases (hw.mem_child hM hm r).1 hr with hr | ⟨-, rfl⟩
    · exact Or.inl ⟨m, Nat.zero_le _, hm, hr⟩
    · exact Or.inr rfl
  · rintro (⟨m, -, hm, hr⟩ | rfl)
    · exact ⟨m, Nat.zero_le _, hm, (hw.mem_child hM hm r).2 (Or.inl hr)⟩
    · exact ⟨j, Nat.zero_le _, hj, (hw.mem_child hM hj _).2 (Or.inr ⟨rfl, rfl⟩)⟩

end WritesBelow

/-! ### Writing a row into its leaf -/

end Pager

/-- Inserting at a position within the list puts the element between the two parts. -/
theorem insertIdx_eq_take_drop {α : Type} (a : α) :
    ∀ (i : ℕ) (l : List α), i ≤ l.length → l.insertIdx i a = l.take i ++ a :: l.drop i
  | 0, l, _ => by simp [List.insertIdx_zero]
  | i + 1, [], h => absurd h (by simp)
  | i + 1, b :: l, h => by
    rw [List.insertIdx_succ_cons, insertIdx_eq_take_drop a i l (by simpa using h)]
    rfl

/-- The cells of a page whose rowids ascend, with a row of a new rowid `key` inserted at
the lower bound of `key`, still ascend. -/
theorem BtreePage.sorted_insertIdx {p : BtreePage} {c : Cell} {key : ℤ} (hck : c.key = key)
    (hs : (p.cells.map Cell.key).Sorted (· < ·)) (hk : key ∉ p.cells.map Cell.key) :
    ((p.cells.insertIdx (p.lowerBound key) c).map Cell.key).Sorted (· < ·) := by
  rw [insertIdx_eq_take_drop _ _ _ (p.lowerBound_le key)]
  have hsplit := List.pairwise_map.1 hs
  rw [← List.take_append_drop (p.lowerBound key) p.cells, List.pairwise_append] at hsplit
  refine List.pairwise_map.2 (List.pairwise_append.2 ⟨hsplit.1,
    List.pairwise_cons.2 ⟨fun b hb => ?_, hsplit.2.1⟩, fun a ha b hb => ?_⟩)
  · refine hck ▸ lt_of_le_of_ne (p.le_key_of_mem_drop hs hb) fun he => hk ?_
    exact he ▸ List.mem_map_of_mem _ (List.mem_of_mem_drop hb)
  · rcases List.mem_cons.1 hb with rfl | hb
    · exact hck ▸ p.key_lt_of_mem_take ha
    · exact hsplit.2.2 a ha b hb

namespace Pager

section InsertRow

variable {pager : Pager} {key : ℤ} {c : Cell} {p' : BtreePage}

/-- **Writing a row into its leaf.** In a well-formed ordered table tree whose pages are
distinct, let the leaf on which the descent for `key` ends be rewritten with its cells and
`c`, a row of the new rowid `key`, inserted at the lower bound. The tree stays well formed
and ordered, and holds its rows and `c`. -/
theorem insertRow_spec (p' : BtreePage) (hck : c.key = key) : ∀ {h : ℕ} {pid : PageId},
    pager.Subtree false h pid → pager.TableOrdered h pid → (pager.treePages h pid).Nodup →
    key ∉ (pager.cellsInOrder false h pid).map Cell.key →
    p'.pageType = (pager.page (pager.leafFor key h pid)).pageType →
    p'.cells = (pager.page (pager.leafFor key h pid)).cells.insertIdx
      ((pager.page (pager.leafFor key h pid)).lowerBound key) c →
    (pager.set (pager.leafFor key h pid) p').Subtree false h pid ∧
      (pager.set (pager.leafFor key h pid) p').TableOrdered h pid ∧
      ∀ r, r ∈ (pager.set (pager.leafFor key h pid) p').cellsInOrder false h pid ↔
        r ∈ pager.cellsInOrder false h pid ∨ r = c
  | 0, _, hs, _, _, _, _, _ => hs.elim
  | h + 1, pid, hs, ho, hn, hk, ht, hc => by
    rcases hl : (pager.page pid).pageType.isLeaf with _ | _
    · -- an interior page: the row goes below the child the descent takes
      rw [leafFor_succ_of_not_isLeaf hl] at ht hc ⊢
      have hjn := (pager.page pid).lowerBound_le key
      have hsc := hs.child hl ((pager.page pid).lowerBound key)
      have hcj := BtreePage.childPageId_mem (pager.page pid) ((pager.page pid).lowerBound key)
      have hkc : key ∉ (pager.cellsInOrder false h
          ((pager.page pid).childPageId ((pager.page pid).lowerBound key))).map Cell.key :=
        fun h' => hk (by
          obtain ⟨r, hr, hrk⟩ := List.mem_map.1 h'
          rw [cellsInOrder_succ_of_not_isLeaf hl, List.mem_map]
          exact ⟨r, (mem_contentsFrom_iff (Nat.zero_le _)).2 ⟨_, Nat.zero_le _, hjn, hr⟩, hrk⟩)
      obtain ⟨ihS, ihO, ihM⟩ := insertRow_spec p' hck hsc.1 ((ho.2 hl).1 _ hcj)
        (nodup_treePages_child hn hl hcj) hkc ht hc
      have hlj := leafFor_mem_treePages key hsc.1
      generalize pager.leafFor key h ((pager.page pid).childPageId
        ((pager.page pid).lowerBound key)) = l at ihS ihO ihM ht hc hlj ⊢
      have hw := WritesBelow.of_set hn hl hjn hlj p'
      have hne : ((pager.set l p').page
          ((pager.page pid).childPageId ((pager.page pid).lowerBound key))).cells ≠ [] := by
        by_cases he : (pager.page pid).childPageId ((pager.page pid).lowerBound key) = l
        · rw [he, set_page_self, hc]
          exact List.ne_nil_of_mem ((List.mem_insertIdx (BtreePage.lowerBound_le _ _)).2
            (Or.inl rfl))
        · rw [set_page_of_ne he]
          exact hsc.2
      exact ⟨hw.subtree hs hl ihS hne, hw.tableOrdered ihM ho hl ihO (by rw [hck]),
        hw.mem_cellsInOrder ihM hl hjn⟩
    · -- a leaf: the leaf of the descent itself
      rw [leafFor_succ_of_isLeaf hl] at ht hc ⊢
      rw [cellsInOrder_succ_of_isLeaf hl] at hk
      have hl' : ((pager.set pid p').page pid).pageType.isLeaf := by rw [set_page_self, ht, hl]
      refine ⟨⟨hs.1, ?_⟩, ⟨?_, fun h' => nomatch hl'.symm.trans h'⟩, fun r => ?_⟩
      · rw [set_page_self, ht]
        exact Or.inl (hs.pageType.resolve_right fun ht' => by simp [ht'] at hl)
      · rw [set_page_self, hc]
        exact BtreePage.sorted_insertIdx hck ho.1 hk
      · rw [cellsInOrder_succ_of_isLeaf hl', set_page_self, hc, cellsInOrder_succ_of_isLeaf hl,
          List.mem_insertIdx (BtreePage.lowerBound_le _ _)]
        exact or_comm

end InsertRow

end Pager

/-! ### Table trees -/

/-- The table at `root` is a well-formed ordered table tree of height at most `H` whose
pages are distinct, and its root is a leaf or holds a cell (on an interior root without
cells, `move_to_last` would take the table for empty). -/
structure TableTree (pager : Pager) (H : ℕ) (root : PageId) : Prop where
  subtree : pager.Subtree false H root
  ordered : pager.TableOrdered H root
  nodup : (pager.treePages H root).Nodup
  rootCells : (pager.page root).pageType.isLeaf ∨ (pager.page root).cells ≠ []

namespace TableTree

variable {pager pager' : Pager} {H : ℕ} {root : PageId}

/-- A pager that agrees on the pages of a table holds the same table. -/
theorem congr (ht : TableTree pager H root) (ha : pager.AgreesOn pager' (pager.treePages H root)) :
    TableTree pager' H root where
  subtree := ht.subtree.congr ha
  ordered := ht.ordered.congr ha
  nodup := (Pager.treePages_congr ha).symm ▸ ht.nodup
  rootCells := (ha.2 root (Pager.self_mem_treePages ht.subtree.pos)).1 ▸ ht.rootCells

/-- The rows of a table are distinct. -/
theorem nodup_cellsInOrder (ht : TableTree pager H root) :
    (pager.cellsInOrder false H root).Nodup :=
  (Pager.sorted_cellsInOrder ht.subtree ht.ordered).nodup.of_map _

end TableTree

/-- The root frame is a frame of a page of the table, which a pager that agrees there keeps. -/
theorem RootOk.congr {pager pager' : Pager} {H : ℕ} {root : PageId} {s : BtreeCursor}
    (hr : RootOk pager root s) (hpos : 0 < H)
    (ha : pager.AgreesOn pager' (pager.treePages H root)) : RootOk pager' root s := by
  have hp := (ha.2 root (Pager.self_mem_treePages hpos)).1
  exact ⟨hr.1, by rw [FrameOk, hr.1, hp]; exact hr.1 ▸ hr.2⟩

/-! ### `insert` -/

/-- Modelled from the spec: the offset of the B-tree header in page `pid`, `100` on page `1`
after the file header and `0` on the others. -/
def headerOffset (pid : PageId) : ℕ := if pid = 1 then 100 else 0

/-- Modelled from the spec: `BtreePageHeader::header_size`, `8` bytes on a leaf and `12` on
an interior page. -/
def BtreePage.headerSize (p : BtreePage) : ℕ := if p.pageType.isLeaf then 8 else 12

/-- Modelled from the spec: `cell_pointer_offset`, where pointer `i` of the cell pointer
array starts. -/
def cellPointerOffset (pid : PageId) (i headerSize : ℕ) : ℕ :=
  headerOffset pid + headerSize + 2 * i

/-- Modelled from the spec: the number of bytes `put_varint` writes for `v`, seven bits a
byte and eight in a ninth. -/
def varintLen (v : ℕ) : ℕ := go 8 v
where
  /-- At most `n` more bytes of seven bits before the last. -/
  go : ℕ → ℕ → ℕ
    | 0, _ => 1
    | n + 1, v => if v < 128 then 1 else go n (v / 128) + 1

/-- Modelled from the spec: `i64_to_u64`, the zigzag map of a rowid. -/
def i64ToU64 (key : ℤ) : ℕ := if 0 ≤ key then 2 * key.toNat else 2 * (-key).toNat - 1

/-- The bytes of the cell of the row `key`: the varints of the payload size and of the
rowid, then the payload. -/
def cellSize (key : ℤ) (payload : List UInt8) : ℕ :=
  varintLen payload.length + varintLen (i64ToU64 key) + payload.length

/-- The big-endian number `bytes` spell. -/
def bigEndian (bytes : List UInt8) : ℕ := bytes.foldl (fun n b => 256 * n + b.toNat) 0

/-- The table-leaf cell of the row `key` as the decoder reads back the bytes `insert` writes,
its header and then the whole payload, on a file of `usableSize` usable bytes. A payload of
at most `maxLocal` bytes is read whole. A longer one is read cut at `localSize`, and the four
bytes after the cut, bytes of the payload, as the page id of its first overflow page. -/
def leafCell (usableSize : ℕ) (key : ℤ) (payload : List UInt8) : Cell :=
  if payload.length ≤ maxLocal usableSize then ⟨0, key, ⟨payload.length, payload, none⟩⟩
  else
    let n := localSize usableSize payload.length
    ⟨0, key, ⟨payload.length, payload.take n, some (bigEndian ((payload.drop n).take 4))⟩⟩

@[simp] theorem leafCell_key (usableSize : ℕ) (key : ℤ) (payload : List UInt8) :
    (leafCell usableSize key payload).key = key := by
  unfold leafCell; split <;> rfl

/-- A payload within the local limit is read back whole, with no overflow page. -/
theorem leafCell_of_le {usableSize : ℕ} {payload : List UInt8}
    (h : payload.length ≤ maxLocal usableSize) (key : ℤ) :
    leafCell usableSize key payload = ⟨0, key, ⟨payload.length, payload, none⟩⟩ := if_pos h

/-- The checks `insert` makes on the leaf `page` (page `pid`, with `n_cells` cached as
`nCells`) before it writes a cell of `cellSize` bytes, in the source's order: no
freeblock and no fragmented bytes (`assert_eq!`), room for the cell and its pointer
between the pointer array and the cell content area (`todo!` otherwise), and an offset
that fits a `u16` and is not `0`. The offset of the new cell, or the panic. -/
def allocateCell (pid : PageId) (nCells : ℕ) (page : BtreePage) (cellSize : ℕ) :
    Except Error ℕ :=
  let unallocatedSpaceOffset := cellPointerOffset pid nCells page.headerSize
  let offset := page.cellContentArea - cellSize
  if page.firstFreeblock ≠ 0 ∨ page.fragmentedFreeBytes ≠ 0 then
    .error (.panic "assertion `left == right` failed")
  else if page.cellContentArea < unallocatedSpaceOffset then
    .error (.panic "attempt to subtract with overflow")
  else if page.cellContentArea - unallocatedSpaceOffset < cellSize + 2 then
    .error (.panic "not yet implemented: balance the btree")
  else if ¬ offset < 65535 then .error (.panic "assertion failed: offset < u16::MAX as usize")
  else if ¬ 0 < offset then .error (.panic "assertion failed: offset > 0")
  else .ok offset

section Insert

variable (pager : Pager)

/-- The second arm of the `match` of `insert`, run with the cursor on the leaf: allocate
the cell, add one to the cached `n_cells`, and insert the cell's pointer at `idx_cell`
(`between`, when `table_move_to` returned a rowid) or append it. The new content of the
pager is returned. -/
def writeCell (key : ℤ) (payload : List UInt8) (between : Bool) : CursorM Pager := do
  let cur := (← get).currentPage
  let page := pager.page cur.mem
  let offset ← liftExcept (allocateCell cur.mem cur.nCells page (cellSize key payload))
  modify fun s => { s with currentPage := { s.currentPage with nCells := s.currentPage.nCells + 1 } }
  let cell := leafCell pager.usableSize key payload
  return pager.set cur.mem { page with
    cellContentArea := offset
    cells := if between then page.cells.insertIdx cur.idxCell cell else page.cells ++ [cell] }

/-- `insert`: write the row `key` into the leaf `table_move_to(key)` finds. -/
def insert (fuel : ℕ) (key : ℤ) (payload : List UInt8) : CursorM Pager := do
  let currentCellKey ← tableMoveTo pager fuel key
  if currentCellKey = some key then throw (.panic "not yet implemented: update the payload")
  writeCell pager key payload currentCellKey.isSome

variable {pager} {key : ℤ} {payload : List UInt8} {s s' : BtreeCursor} {pager' : Pager}

/-- What a successful write does: the leaf gets the cell, and its frame one more cell. -/
theorem writeCell_ok {between : Bool} (h : writeCell pager key payload between s = .ok pager' s') :
    (∃ offset, pager' = pager.set s.currentPage.mem { pager.page s.currentPage.mem with
      cellContentArea := offset
      cells := if between then
          (pager.page s.currentPage.mem).cells.insertIdx s.currentPage.idxCell
            (leafCell pager.usableSize key payload)
        else (pager.page s.currentPage.mem).cells ++ [leafCell pager.usableSize key payload] }) ∧
      s' = { s with
        currentPage := { s.currentPage with nCells := s.currentPage.nCells + 1 } } := by
  simp only [writeCell, EStateM.bind_apply, EStateM.get_apply] at h
  cases ha : allocateCell s.currentPage.mem s.currentPage.nCells (pager.page s.currentPage.mem)
    (cellSize key payload) with
  | error e => simp [ha, liftExcept] at h
  | ok offset =>
    simp only [ha, liftExcept_ok, EStateM.modify_apply, EStateM.pure_apply] at h
    obtain ⟨rfl, rfl⟩ := EStateM.Result.ok.inj h
    exact ⟨⟨offset, rfl⟩, rfl⟩

/-- With the cursor on the leaf at the position `table_move_to` returned, both arms of the
pointer insertion put the cell at that position. -/
theorem insertIdx_of_tableCellKey {p : BtreePage} {i : ℕ} (hi : i ≤ p.nCells) (c : Cell) :
    (if (p.tableCellKey i).isSome then p.cells.insertIdx i c else p.cells ++ [c]) =
      p.cells.insertIdx i c := by
  split
  · rfl
  · rename_i hnone
    obtain rfl : i = p.cells.length := le_antisymm hi (not_lt.1 fun hlt => by
      simp [BtreePage.tableCellKey, List.getElem?_eq_getElem hlt] at hnone)
    rw [List.insertIdx_length_self]

/-- **`insert`.** From any state with a correct root frame, on a table tree and with fuel
for its height, a successful `insert` of a rowid the table does not hold keeps the table a
table tree on the same pages, adds exactly the row `leafCell` reads back, and keeps the root
frame. -/
theorem insert_spec {H fuel : ℕ} {root : PageId} (ht : TableTree pager H root)
    (hr : RootOk pager root s) (hfuel : H ≤ fuel)
    (hk : key ∉ (pager.cellsInOrder false H root).map Cell.key)
    (h : insert pager fuel key payload s = .ok pager' s') :
    TableTree pager' H root ∧ RootOk pager' root s' ∧
      pager'.treePages H root = pager.treePages H root ∧ pager'.usableSize = pager.usableSize ∧
      (pager'.cellsInOrder false H root).Perm
        (pager.cellsInOrder false H root ++ [leafCell pager.usableSize key payload]) := by
  obtain ⟨s₁, hrun, hcur, -, hr₁, hpar⟩ :=
    tableMoveTo_spec key ht.subtree ht.ordered hr hfuel
  have hne := mt (tableMoveTo_eq_some_iff ht.subtree ht.ordered hr hfuel hrun).1 hk
  simp only [insert, EStateM.bind_apply, hrun, if_neg hne, EStateM.pure_apply] at h
  obtain ⟨⟨offset, rfl⟩, rfl⟩ := writeCell_ok h
  obtain ⟨hlt, -, -⟩ := Pager.leafFor_spec key ht.subtree ht.ordered
  have hleaf : (pager.page (pager.leafFor key H root)).pageType.isLeaf := by rw [hlt]; rfl
  obtain ⟨⟨_, _, _, _, _⟩, parents, _⟩ := s₁
  simp only [CursorPage.new, CursorPage.mk.injEq] at hcur
  obtain ⟨rfl, rfl, rfl, rfl, rfl⟩ := hcur
  simp only [insertIdx_of_tableCellKey (BtreePage.lowerBound_le _ _)]
  generalize hl : pager.leafFor key H root = l at hlt hleaf hr₁ hpar
  set p' : BtreePage := { pager.page l with
    cellContentArea := offset
    cells := (pager.page l).cells.insertIdx ((pager.page l).lowerBound key)
      (leafCell pager.usableSize key payload) }
  obtain ⟨hS, hO, hM⟩ := Pager.insertRow_spec p' (leafCell_key pager.usableSize key payload)
    ht.subtree ht.ordered ht.nodup hk (by rw [hl]) (by rw [hl])
  rw [hl] at hS hO hM
  have hpages : (pager.set l p').treePages H root = pager.treePages H root :=
    Pager.treePages_set_leaf (p := p') hleaf hleaf
  have ht' : TableTree (pager.set l p') H root := ⟨hS, hO, hpages ▸ ht.nodup, by
    by_cases he : root = l
    · subst he
      exact Or.inl (by simpa using hleaf)
    · rw [Pager.set_page_of_ne he]
      exact ht.rootCells⟩
  refine ⟨ht', ?_, hpages, rfl, ?_⟩
  · -- the root frame: the leaf's own frame if the root is the leaf, else unchanged
    rcases parents with _ | ⟨g, gs⟩
    · obtain rfl : l = root := hr₁.1
      refine ⟨rfl, ?_⟩
      simp only [BtreeCursor.bottom, List.getLast?_nil, Option.getD_none, FrameOk,
        Pager.set_page_self, BtreePage.nCells, and_true]
      rw [List.length_insertIdx _ _ (BtreePage.lowerBound_le _ _)]
    · have hne : root ≠ l := fun he => List.cons_ne_nil g gs (hpar (he ▸ hleaf))
      simp only [RootOk, BtreeCursor.bottom, List.getLast?_cons, Option.getD_some] at hr₁ ⊢
      rw [FrameOk, hr₁.1, Pager.set_page_of_ne hne]
      exact ⟨rfl, hr₁.1 ▸ hr₁.2⟩
  · -- the rows: the old ones and the new one, all distinct
    have hc : leafCell pager.usableSize key payload ∉ pager.cellsInOrder false H root :=
      fun hc => hk (leafCell_key pager.usableSize key payload ▸ List.mem_map_of_mem _ hc)
    refine (List.perm_ext_iff_of_nodup ht'.nodup_cellsInOrder
      (List.nodup_append.2 ⟨ht.nodup_cellsInOrder, List.nodup_singleton _,
        fun a ha hb => hc (by rw [← List.mem_singleton.1 hb]; exact ha)⟩)).2 fun r => ?_
    rw [hM, List.mem_append, List.mem_singleton]

/-- `insert` of a rowid the table holds panics in `todo!("update the payload")`. -/
theorem insert_existing_panics {H fuel : ℕ} {root : PageId} (hwf : pager.Subtree false H root)
    (ho : pager.TableOrdered H root) (hr : RootOk pager root s) (hfuel : H ≤ fuel)
    (hk : key ∈ (pager.cellsInOrder false H root).map Cell.key) :
    ∃ s', insert pager fuel key payload s =
      .error (.panic "not yet implemented: update the payload") s' := by
  obtain ⟨s₁, hrun, -⟩ := tableMoveTo_spec key hwf ho hr hfuel
  have hc := (tableMoveTo_eq_some_iff hwf ho hr hfuel hrun).2 hk
  exact ⟨s₁, by simp [insert, hrun, hc]⟩

end Insert

/-- On `twoLevelTable`, `insert` of the rowid `11` from a fresh cursor panics. -/
theorem twoLevelTable_insert_existing :
    twoLevelTable.Subtree false 2 2 ∧ twoLevelTable.TableOrdered 2 2 ∧
    RootOk twoLevelTable 2 ⟨CursorPage.new twoLevelTable 2, [], false⟩ ∧
    11 ∈ (twoLevelTable.cellsInOrder false 2 2).map Cell.key ∧
    ∃ s', insert twoLevelTable 2 11 [2, 1, 11] ⟨CursorPage.new twoLevelTable 2, [], false⟩ =
      .error (.panic "not yet implemented: update the payload") s' :=
  ⟨by decide, by decide, ⟨rfl, frameOk_new _ _⟩, by decide,
    insert_existing_panics (by decide) (by decide) ⟨rfl, frameOk_new _ _⟩ le_rfl (by decide)⟩

end Prsqlite
