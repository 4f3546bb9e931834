import Mathlib.Data.List.Sort
import Prsqlite.Page

/-!
# Well-formed Trees and What They Hold

A page id of a pager roots a well-formed tree when the pages below it form a finite
tree of one kind, table or index. `Subtree index h pid` says so with a bound `h` on the
height: the page exists, and it is a leaf, or an interior page every child of which is
a non-empty well-formed tree of height below `h`. Only the root may be empty.

`cellsInOrder index h pid` is what the tree holds, in order. Table trees keep their rows
on the leaves, so `cellsInOrder false` is the list of leaf cells, left to right; index
trees keep entries on every page, and `cellsInOrder true` puts each interior cell between
the subtree of its left child and the next child. The height bound is fuel only:
`cellsInOrder_stable` shows that any bound above the height gives the same list.

`contentsFrom index F p j` is what an interior page `p` holds from child `j` on. It is
the unit in which the cursor's position is accounted for in `Prsqlite.Traversal`.

`TableOrdered` is the order of the table trees: keys ascend within each page, and for
an interior cell `i` with key `k` the rows under its left child have keys `≤ k` and the
rows under every later child keys `> k`. `sorted_cellsInOrder` derives that the rows of
such a tree strictly ascend.

`InTree root` is the set of pages reached from `root` along child pointers, whatever the
pages hold: the pages a cursor opened on `root` can visit.
-/

namespace Prsqlite

namespace Pager

variable (pager : Pager) (index : Bool)

/-- The cells the subtree at `pid` holds in order, with height bound `h`. -/
def cellsInOrder : ℕ → PageId → List Cell
  | 0, _ => []
  | h + 1, pid =>
    if (pager.page pid).pageType.isLeaf then (pager.page pid).cells
    else ((pager.page pid).cells.flatMap fun c =>
        cellsInOrder h c.leftChild ++ if index then [c] else []) ++
      cellsInOrder h (pager.page pid).rightPageId

/-- What the left child of `c` holds, followed by `c` itself in an index tree. -/
def segment (h : ℕ) (c : Cell) : List Cell :=
  pager.cellsInOrder index h c.leftChild ++ if index then [c] else []

/-- What the interior page `p` holds from its child `j` on. -/
def contentsFrom (h : ℕ) (p : BtreePage) (j : ℕ) : List Cell :=
  (p.cells.drop j).flatMap (pager.segment index h) ++ pager.cellsInOrder index h p.rightPageId

/-- `pid` roots a well-formed tree of height at most `h`. -/
def Subtree : ℕ → PageId → Prop
  | 0, _ => False
  | h + 1, pid => pager.Valid pid ∧
      ((pager.page pid).pageType = .leaf index ∨
        ((pager.page pid).pageType = .interior index ∧
          ∀ c ∈ (pager.page pid).childPageIds, Subtree h c ∧ (pager.page c).cells ≠ []))

/-- Whether a page roots a well-formed tree can be computed, by recursion on the height. -/
instance decSubtree : ∀ h pid, Decidable (pager.Subtree index h pid)
  | 0, _ => isFalse id
  | h + 1, _ =>
    have := fun c => decSubtree h c
    inferInstanceAs (Decidable (_ ∧ (_ ∨ (_ ∧ ∀ c ∈ _, _ ∧ _))))

variable {pager index}

@[simp] theorem cellsInOrder_zero (pid : PageId) : pager.cellsInOrder index 0 pid = [] := rfl

/-- A leaf holds its cells. -/
theorem cellsInOrder_succ_of_isLeaf {h : ℕ} {pid : PageId}
    (hl : (pager.page pid).pageType.isLeaf) :
    pager.cellsInOrder index (h + 1) pid = (pager.page pid).cells := by
  simp [cellsInOrder, hl]

/-- An interior page holds what its children and, on an index, its cells hold. -/
theorem cellsInOrder_succ_of_not_isLeaf {h : ℕ} {pid : PageId}
    (hl : (pager.page pid).pageType.isLeaf = false) :
    pager.cellsInOrder index (h + 1) pid = pager.contentsFrom index h (pager.page pid) 0 := by
  rw [cellsInOrder, if_neg (by simp [hl])]
  rfl

/-- The root of a well-formed tree is a page of the file. -/
theorem Subtree.valid {h : ℕ} {pid : PageId} (hs : pager.Subtree index h pid) :
    pager.Valid pid := by
  cases h with
  | zero => exact hs.elim
  | succ h => exact hs.1

/-- A subtree of height bound `h` has a positive bound. -/
theorem Subtree.pos {h : ℕ} {pid : PageId} (hs : pager.Subtree index h pid) : 0 < h := by
  cases h with
  | zero => exact hs.elim
  | succ h => exact Nat.succ_pos h

/-- The children of a well-formed interior page are non-empty well-formed trees of a
smaller height. -/
theorem Subtree.child {h : ℕ} {pid : PageId} (hs : pager.Subtree index (h + 1) pid)
    (hl : (pager.page pid).pageType.isLeaf = false) (i : ℕ) :
    pager.Subtree index h ((pager.page pid).childPageId i) ∧
      (pager.page ((pager.page pid).childPageId i)).cells ≠ [] := by
  rcases hs.2 with ht | ⟨-, hc⟩
  · simp [ht] at hl
  · exact hc _ (BtreePage.childPageId_mem _ i)

/-- It is a leaf or an interior page of the tree's kind. -/
theorem Subtree.pageType {h : ℕ} {pid : PageId} (hs : pager.Subtree index h pid) :
    (pager.page pid).pageType = .leaf index ∨ (pager.page pid).pageType = .interior index := by
  cases h with
  | zero => exact hs.elim
  | succ h => exact hs.2.imp id And.left

/-- A larger height bound describes the same trees. -/
theorem Subtree.mono : ∀ {h h' : ℕ} {pid : PageId}, pager.Subtree index h pid → h ≤ h' →
    pager.Subtree index h' pid
  | 0, _, _, hs, _ => hs.elim
  | h + 1, h' + 1, pid, hs, hh => by
    refine ⟨hs.1, hs.2.imp id fun ⟨ht, hc⟩ => ⟨ht, fun c hc' => ?_⟩⟩
    exact ⟨(hc c hc').1.mono (by omega), (hc c hc').2⟩

/-- **Fuel irrelevance.** Every bound above the height gives the same contents. -/
theorem cellsInOrder_stable : ∀ {h F : ℕ} {pid : PageId}, pager.Subtree index h pid → h ≤ F →
    pager.cellsInOrder index F pid = pager.cellsInOrder index h pid
  | 0, _, _, hs, _ => hs.elim
  | h + 1, F + 1, pid, hs, hh => by
    rcases hl : (pager.page pid).pageType.isLeaf with _ | _
    · rcases hs.2 with ht | ⟨ht, hc⟩
      · simp [ht] at hl
      have hseg : ∀ c ∈ (pager.page pid).cells,
          pager.cellsInOrder index F c.leftChild = pager.cellsInOrder index h c.leftChild :=
        fun c hc' => cellsInOrder_stable
          (hc _ (List.mem_append_left _ (List.mem_map_of_mem _ hc'))).1 (by omega)
      have hr := cellsInOrder_stable
        (hc _ (List.mem_append_right _ (List.mem_singleton_self _))).1 (show h ≤ F by omega)
      simp only [cellsInOrder, hl, Bool.false_eq_true, if_false, hr]
      congr 1
      exact List.flatMap_congr fun c hc' => by rw [hseg c hc']
    · rw [cellsInOrder_succ_of_isLeaf hl, cellsInOrder_succ_of_isLeaf hl]

/-- From child `j < n` on: that child, then (in an index tree) cell `j`, then the rest. -/
theorem contentsFrom_of_lt {h : ℕ} {p : BtreePage} {j : ℕ} (hj : j < p.nCells) :
    pager.contentsFrom index h p j =
      pager.cellsInOrder index h (p.childPageId j) ++
        ((if index then [p.cells.get ⟨j, hj⟩] else []) ++
          pager.contentsFrom index h p (j + 1)) := by
  rw [contentsFrom, contentsFrom, List.drop_eq_getElem_cons hj, List.flatMap_cons,
    BtreePage.childPageId_of_lt hj]
  simp [segment]

/-- From the right child on: the right child alone. -/
theorem contentsFrom_nCells {h : ℕ} {p : BtreePage} :
    pager.contentsFrom index h p p.nCells = pager.cellsInOrder index h p.rightPageId := by
  simp [contentsFrom, BtreePage.nCells]

/-- `contentsFrom` only depends on what the children hold. -/
theorem contentsFrom_congr {pager' : Pager} {h h' : ℕ} {p : BtreePage} (j : ℕ)
    (hc : ∀ c ∈ p.childPageIds, pager.cellsInOrder index h c = pager'.cellsInOrder index h' c) :
    pager.contentsFrom index h p j = pager'.contentsFrom index h' p j := by
  simp only [contentsFrom, segment]
  rw [hc _ (List.mem_append_right _ (List.mem_singleton_self _))]
  congr 1
  refine List.flatMap_congr fun c hc' => ?_
  rw [segment, segment,
    hc _ (List.mem_append_left _ (List.mem_map_of_mem _ (List.mem_of_mem_drop hc')))]

/-- The contents of a well-formed interior page, at any bound above its height. -/
theorem cellsInOrder_eq_contentsFrom {h F : ℕ} {pid : PageId}
    (hs : pager.Subtree index (h + 1) pid) (hl : (pager.page pid).pageType.isLeaf = false)
    (hF : h < F) :
    pager.cellsInOrder index F pid = pager.contentsFrom index F (pager.page pid) 0 := by
  obtain ⟨F, rfl⟩ : ∃ F', F = F' + 1 := ⟨F - 1, by omega⟩
  rw [cellsInOrder_succ_of_not_isLeaf hl]
  refine contentsFrom_congr 0 fun c hc => ?_
  have hsc := (hs.2.resolve_left fun ht => by simp [ht] at hl).2 c hc
  rw [cellsInOrder_stable hsc.1 (by omega : h ≤ F),
    cellsInOrder_stable hsc.1 (by omega : h ≤ F + 1)]

/-- Up to child `i`, an interior page holds the segments of its first `i` cells. -/
theorem contentsFrom_zero {h : ℕ} (p : BtreePage) (i : ℕ) :
    pager.contentsFrom index h p 0 =
      (p.cells.take i).flatMap (pager.segment index h) ++ pager.contentsFrom index h p i := by
  conv_lhs => rw [contentsFrom, List.drop_zero, ← List.take_append_drop i p.cells]
  rw [List.flatMap_append, List.append_assoc, contentsFrom]

/-- Every cell of a page of an index tree is one of the entries below it. -/
theorem cells_sublist_cellsInOrder {F : ℕ} {pid : PageId} (hF : 0 < F) :
    (pager.page pid).cells.Sublist (pager.cellsInOrder true F pid) := by
  obtain ⟨F, rfl⟩ : ∃ F', F = F' + 1 := ⟨F - 1, by omega⟩
  unfold cellsInOrder
  split
  · exact List.Sublist.refl _
  · refine List.sublist_append_of_sublist_left ?_
    induction (pager.page pid).cells with
    | nil => exact List.nil_sublist _
    | cons c cs ih =>
      rw [List.flatMap_cons, if_pos rfl, List.append_assoc]
      exact List.sublist_append_of_sublist_right (ih.cons₂ c)

/-- The contents of a well-formed leaf, at any positive bound. -/
theorem cellsInOrder_of_isLeaf {F : ℕ} {pid : PageId} (hl : (pager.page pid).pageType.isLeaf)
    (hF : 0 < F) : pager.cellsInOrder index F pid = (pager.page pid).cells := by
  obtain ⟨F, rfl⟩ : ∃ F', F = F' + 1 := ⟨F - 1, by omega⟩
  exact cellsInOrder_succ_of_isLeaf hl

/-! ### The order of table trees -/

variable (pager) in
/-- Keys ascend within each page, and the rows under the left child of an interior
cell `i` have keys `≤` its key, the rows under every later child keys `>` it. -/
def TableOrdered : ℕ → PageId → Prop
  | 0, _ => True
  | h + 1, pid =>
    ((pager.page pid).cells.map Cell.key).Sorted (· < ·) ∧
      ((pager.page pid).pageType.isLeaf = false →
        (∀ c ∈ (pager.page pid).childPageIds, TableOrdered h c) ∧
        ∀ i (hi : i < (pager.page pid).nCells),
          (∀ r ∈ pager.cellsInOrder false h ((pager.page pid).childPageId i),
            r.key ≤ ((pager.page pid).cells.get ⟨i, hi⟩).key) ∧
          ∀ r ∈ pager.contentsFrom false h (pager.page pid) (i + 1),
            ((pager.page pid).cells.get ⟨i, hi⟩).key < r.key)

/-- Whether a table tree is ordered can be computed, by recursion on the height. -/
instance decTableOrdered : ∀ h pid, Decidable (pager.TableOrdered h pid)
  | 0, _ => isTrue trivial
  | h + 1, _ =>
    have := fun c => decTableOrdered h c
    inferInstanceAs (Decidable (_ ∧ (_ → (∀ c ∈ _, _) ∧ ∀ i (_ : i < _), _ ∧ _)))

/-- The rows of an ordered table tree strictly ascend in key. -/
theorem sorted_cellsInOrder : ∀ {h : ℕ} {pid : PageId}, pager.Subtree false h pid →
    pager.TableOrdered h pid → ((pager.cellsInOrder false h pid).map Cell.key).Sorted (· < ·)
  | 0, _, hs, _ => hs.elim
  | h + 1, pid, hs, ho => by
    rcases hl : (pager.page pid).pageType.isLeaf with _ | _
    · obtain ⟨hchild, hsep⟩ := ho.2 hl
      have hsub := (hs.2.resolve_left fun ht => by simp [ht] at hl).2
      rw [cellsInOrder_succ_of_not_isLeaf hl]
      suffices ∀ k j, j + k = (pager.page pid).nCells →
          ((pager.contentsFrom false h (pager.page pid) j).map Cell.key).Sorted (· < ·) from
        this _ 0 (Nat.zero_add _)
      intro k
      induction k with
      | zero =>
        intro j hj
        rw [Nat.add_zero] at hj
        subst hj
        rw [contentsFrom_nCells]
        have hr : (pager.page pid).rightPageId ∈ (pager.page pid).childPageIds := by
          simp [BtreePage.childPageIds]
        exact sorted_cellsInOrder (hsub _ hr).1 (hchild _ hr)
      | succ k ih =>
        intro j hj
        have hjn : j < (pager.page pid).nCells := by omega
        rw [contentsFrom_of_lt hjn, if_neg Bool.false_ne_true, List.nil_append, List.map_append,
          List.Sorted, List.pairwise_append]
        refine ⟨sorted_cellsInOrder (hsub _ (BtreePage.childPageId_mem _ j)).1
          (hchild _ (BtreePage.childPageId_mem _ j)), ih (j + 1) (by omega), ?_⟩
        simp only [List.mem_map]
        rintro _ ⟨a, ha, rfl⟩ _ ⟨b, hb, rfl⟩
        exact lt_of_le_of_lt ((hsep j hjn).1 a ha) ((hsep j hjn).2 b hb)
    · rw [cellsInOrder_succ_of_isLeaf hl]
      exact ho.1

/-- The pages reached from `root` along the child pointers of interior pages. -/
inductive InTree (pager : Pager) (root : PageId) : PageId → Prop
  | root : pager.InTree root root
  | child {p c : PageId} : pager.InTree root p → (pager.page p).pageType.isLeaf = false →
      c ∈ (pager.page p).childPageIds → pager.InTree root c

end Pager

/-! ### Two sample trees -/

/-- A table-leaf page holding rows with the given keys, each row the record of one
integer column equal to its key: header `[2, 1]`, then the value. -/
def tableLeafPage (keys : List ℤ) : BtreePage :=
  ⟨.tableLeaf, 0, 4000, 0, 0, keys.map fun k => ⟨0, k, ⟨3, [2, 1, k.toNat.toUInt8], none⟩⟩⟩

/-- A table of four rows, `1, 2` on page 3 and `11, 12` on page 4, under the root page 2
whose one cell has the separator `10`: a loose one, as the left leaf's largest key is `2`. -/
def twoLevelTable : Pager where
  numPages := 4
  page
    | 2 => ⟨.tableInterior, 0, 4000, 0, 4, [⟨3, 10, ⟨0, [], none⟩⟩]⟩
    | 3 => tableLeafPage [1, 2]
    | _ => tableLeafPage [11, 12]
  overflowPage _ := none
  usableSize := 4096

/-- An index of three entries `(10, 1)`, `(20, 2)`, `(30, 3)`, each the record of an
indexed value and a rowid: the root page 2 holds `(20, 2)` between the leaves 3 and 4. -/
def twoLevelIndex : Pager where
  numPages := 4
  page
    | 2 => ⟨.indexInterior, 0, 4000, 0, 4, [⟨3, 0, ⟨5, [3, 1, 1, 20, 2], none⟩⟩]⟩
    | 3 => ⟨.indexLeaf, 0, 4000, 0, 0, [⟨0, 0, ⟨5, [3, 1, 1, 10, 1], none⟩⟩]⟩
    | _ => ⟨.indexLeaf, 0, 4000, 0, 0, [⟨0, 0, ⟨5, [3, 1, 1, 30, 3], none⟩⟩]⟩
  overflowPage _ := none
  usableSize := 4096

example : twoLevelTable.Subtree false 2 2 ∧ twoLevelTable.TableOrdered 2 2 ∧
    twoLevelIndex.Subtree true 2 2 := by decide

example : (twoLevelTable.cellsInOrder false 2 2).map Cell.key = [1, 2, 11, 12] := by decide

end Prsqlite
