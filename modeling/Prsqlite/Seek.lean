import Prsqlite.TableSeek
import Prsqlite.Traversal

/-!
# Seeking

`index_move_to` positions the cursor by the keys it is given: a binary search over the
cells of each page, from the root down, comparing the keys with each cell's record by
`compare_record`. This module proves what it does on a well-formed index tree whose
entries, in order, compare `Greater` to the keys for a prefix, then `Equal`, then `Less`
(`Partitioned`): the cursor lands on an equal entry if there is one, else on the first
entry above the keys, else it completes, and `move_next` continues from there.

`table_move_to` descends the same way on a table tree, comparing rowids. Its separators
are only bounds: the rows under the left child of a cell with key `k` have keys `≤ k`,
not necessarily one equal to `k`. On a leaf all of whose keys are below the key sought it
returns `None`, without looking at the next leaf.

## Main results

* `indexSearch_spec`: the binary search returns an equal cell, or the split of the page's
  cells into those below the keys and those above.
* `indexMoveToLoop_spec`: the descent keeps the entries left of the current subtree
  below the keys and those right of it above them (`SeekInv`), and ends on the answer.
* `index_seek`: `index_move_to` followed by `move_next` calls.
* `tableMoveTo_misses_next_leaf`: `table_move_to` returns `None` on a key below the
  tree's largest.
* `moveNext_panics_at_end`: `move_next` fails an assertion from states in which the
  getters return `None`.
-/

namespace Prsqlite

/-! ### Lists partitioned by a comparator -/

section Partitioned

variable (cmp : PayloadInfo → Ordering)

/-- `x` may come before `y` in a list sorted under `cmp`: if `y` is below the keys so is
`x`, and if `x` is above them so is `y`. -/
def Precedes (x y : Cell) : Prop :=
  (cmp y.payload = .gt → cmp x.payload = .gt) ∧ (cmp x.payload = .lt → cmp y.payload = .lt)

/-- The results of `cmp` along `l` are some `gt`, then some `eq`, then some `lt`. -/
def Partitioned (l : List Cell) : Prop := l.Pairwise (Precedes cmp)

variable {cmp}

/-- Part of a partitioned list is partitioned. -/
theorem Partitioned.sublist {l l' : List Cell} (h : Partitioned cmp l) (hs : l'.Sublist l) :
    Partitioned cmp l' :=
  List.Pairwise.sublist hs h

/-- Everything before an entry below the keys is below them. -/
theorem Partitioned.gt_of_gt {l l' : List Cell} {c : Cell} (h : Partitioned cmp (l ++ c :: l'))
    (hc : cmp c.payload = .gt) : ∀ x ∈ l, cmp x.payload = .gt :=
  fun x hx => ((List.pairwise_append.1 h).2.2 x hx c (List.mem_cons_self _ _)).1 hc

/-- Everything after an entry above the keys is above them. -/
theorem Partitioned.lt_of_lt {l l' : List Cell} {c : Cell} (h : Partitioned cmp (l ++ c :: l'))
    (hc : cmp c.payload = .lt) : ∀ y ∈ l', cmp y.payload = .lt :=
  fun y hy => ((List.pairwise_cons.1 (List.pairwise_append.1 h).2.1).1 y hy).2 hc

end Partitioned

/-! ### The binary search of `index_move_to` -/

/-- What the search may return on `cells`: an equal cell, or the split of `cells` into
those below the keys and those above them. -/
def IndexSearch.Spec (cmp : PayloadInfo → Ordering) (cells : List Cell) : IndexSearch → Prop
  | .found i => ∃ h : i < cells.length, cmp cells[i].payload = .eq
  | .notFound m => m ≤ cells.length ∧ (∀ c ∈ cells.take m, cmp c.payload = .gt) ∧
      ∀ c ∈ cells.drop m, cmp c.payload = .lt

section Search

variable {page : BtreePage} {compareRecord : PayloadInfo → Except Error Ordering}
  {cmp : PayloadInfo → Ordering}

/-- **The binary search.** If the cells before `i_min` are below the keys and those from
`i_max` on above them, a bound on the interval's width suffices for the search to return
an equal cell or the split. -/
theorem indexSearch_spec (hp : Partitioned cmp page.cells)
    (hc : ∀ c ∈ page.cells, compareRecord c.payload = .ok (cmp c.payload)) :
    ∀ (bound iMin iMax : ℕ), iMin ≤ iMax → iMax ≤ page.nCells → iMax - iMin ≤ bound →
      (∀ c ∈ page.cells.take iMin, cmp c.payload = .gt) →
      (∀ c ∈ page.cells.drop iMax, cmp c.payload = .lt) →
      ∃ r, indexSearch page compareRecord bound iMin iMax = .ok r ∧ r.Spec cmp page.cells
  | 0, iMin, iMax, hle, hmax, hb, hlo, hhi => by
    obtain rfl : iMin = iMax := by omega
    exact ⟨_, rfl, hmax, hlo, hhi⟩
  | bound + 1, iMin, iMax, hle, hmax, hb, hlo, hhi => by
    by_cases hlt : iMin < iMax
    · have hm : (iMin + iMax) / 2 < page.cells.length :=
        lt_of_lt_of_le (by omega) hmax
      have hsplit := (List.take_append_drop ((iMin + iMax) / 2) page.cells).symm
      rw [List.drop_eq_getElem_cons hm] at hsplit
      have hcell : page.indexCellKey ((iMin + iMax) / 2) =
          some page.cells[(iMin + iMax) / 2].payload := by
        simp [BtreePage.indexCellKey, List.getElem?_eq_getElem hm]
      have hcmp := hc _ (List.getElem_mem hm)
      rcases hr : cmp page.cells[(iMin + iMax) / 2].payload
      · -- below the middle cell: the upper half is above the keys
        obtain ⟨r, hrun, hspec⟩ := indexSearch_spec hp hc bound iMin ((iMin + iMax) / 2)
          (by omega) (by omega) (by omega) hlo fun c hmem => by
            rw [List.drop_eq_getElem_cons hm, List.mem_cons] at hmem
            rcases hmem with rfl | hmem
            · exact hr
            · exact (hsplit ▸ hp).lt_of_lt hr c hmem
        refine ⟨r, ?_, hspec⟩
        simp only [indexSearch, if_pos hlt, hcell, hcmp, hr, hrun]
      · exact ⟨.found ((iMin + iMax) / 2), by simp only [indexSearch, if_pos hlt, hcell, hcmp, hr],
          hm, hr⟩
      · -- above the middle cell: the lower half is below the keys
        obtain ⟨r, hrun, hspec⟩ := indexSearch_spec hp hc bound ((iMin + iMax) / 2 + 1) iMax
          (by omega) hmax (by omega) (fun c hmem => by
            rw [List.take_succ, List.getElem?_eq_getElem hm, Option.toList_some,
              List.mem_append, List.mem_singleton] at hmem
            rcases hmem with hmem | rfl
            · exact (hsplit ▸ hp).gt_of_gt hr c hmem
            · exact hr) hhi
        refine ⟨r, ?_, hspec⟩
        simp only [indexSearch, if_pos hlt, hcell, hcmp, hr, hrun]
    · obtain rfl : iMin = iMax := by omega
      exact ⟨.notFound iMin, by simp [indexSearch], hmax, hlo, hhi⟩

/-- The search reads no cell from `i_max` on: whatever follows the page's cells, it returns
the same. -/
theorem indexSearch_append (extra : List Cell) : ∀ (bound iMin iMax : ℕ), iMax ≤ page.nCells →
    indexSearch { page with cells := page.cells ++ extra } compareRecord bound iMin iMax =
      indexSearch page compareRecord bound iMin iMax
  | 0, _, _, _ => rfl
  | bound + 1, iMin, iMax, hmax => by
    by_cases hlt : iMin < iMax
    · have hm : (iMin + iMax) / 2 < page.cells.length := lt_of_lt_of_le (by omega) hmax
      have hcell : ({ page with cells := page.cells ++ extra } : BtreePage).indexCellKey
          ((iMin + iMax) / 2) = page.indexCellKey ((iMin + iMax) / 2) := by
        simp [BtreePage.indexCellKey, List.getElem?_append_left hm]
      simp only [indexSearch, if_pos hlt, hcell]
      rcases page.indexCellKey ((iMin + iMax) / 2) with _ | payloadInfo
      · rfl
      · dsimp only
        rcases compareRecord payloadInfo with _ | ⟨⟩ | ⟨⟩ | ⟨⟩
        · rfl
        · exact indexSearch_append extra bound _ _ (by omega)
        · rfl
        · exact indexSearch_append extra bound _ _ hmax
    · simp only [indexSearch, if_neg hlt]

/-- A search that finds no equal cell stops after the cells below the keys, and there is no
equal cell. -/
theorem IndexSearch.Spec.notFound {cells : List Cell} {m : ℕ}
    (h : (IndexSearch.notFound m).Spec cmp cells) :
    m = cells.countP (fun c => cmp c.payload = .gt) ∧ ∀ c ∈ cells, cmp c.payload ≠ .eq := by
  obtain ⟨hm, hlo, hhi⟩ := h
  constructor
  · conv_rhs => rw [← List.take_append_drop m cells]
    rw [List.countP_append, List.countP_eq_length.2 fun a ha => by simpa using hlo a ha,
      List.countP_eq_zero.2 fun b hb => by simp [hhi b hb], List.length_take, min_eq_left hm,
      Nat.add_zero]
  · intro c hc
    rw [← List.take_append_drop m cells, List.mem_append] at hc
    rcases hc with hc | hc
    · simp [hlo c hc]
    · simp [hhi c hc]

end Search

/-! ### Both searches -/

/-- **The binary searches of `table_move_to` and `index_move_to`.** On a page whose rowids
ascend, or whose records compare with the keys as a sorted index does (`Partitioned`), the
search over its `n` cells ends within any bound of at least `n` steps, and reads only those
cells: whatever follows them, the result is the same. The table search returns the number
of cells below `key`, the position of a cell equal to `key` if there is one, and the rowid
of the cell there, `None` past the last. The index search returns an equal cell, or, when
there is none, the number of cells below the keys. -/
theorem binary_searches_lower_bound (page : BtreePage) :
    ((page.cells.map Cell.key).Sorted (· < ·) → ∀ (key : ℤ) (bound : ℕ), page.nCells ≤ bound →
      ∃ i, (∀ extra, tableSearch { page with cells := page.cells ++ extra } key bound 0
          page.nCells none = .ok (i, page.tableCellKey i)) ∧
        i = page.cells.countP (fun c => c.key < key) ∧
        (∀ h : i < page.nCells, page.tableCellKey i = some (page.cells.get ⟨i, h⟩).key) ∧
        (i = page.nCells → page.tableCellKey i = none) ∧
        ∀ j (hj : j < page.nCells), (page.cells.get ⟨j, hj⟩).key = key → i = j) ∧
    ∀ (cmp : PayloadInfo → Ordering) (compareRecord : PayloadInfo → Except Error Ordering),
      Partitioned cmp page.cells → (∀ c ∈ page.cells, compareRecord c.payload = .ok (cmp c.payload)) →
      ∀ bound, page.nCells ≤ bound →
      ∃ r, (∀ extra, indexSearch { page with cells := page.cells ++ extra } compareRecord bound 0
          page.nCells = .ok r) ∧
        match r with
        | .found i => ∃ h : i < page.nCells, cmp (page.cells.get ⟨i, h⟩).payload = .eq
        | .notFound m =>
          m = page.cells.countP (fun c => cmp c.payload = .gt) ∧ ∀ c ∈ page.cells, cmp c.payload ≠ .eq := by
  constructor
  · intro hs key bound hb
    refine ⟨page.lowerBound key, fun extra => ?_, BtreePage.lowerBound_eq_countP hs,
      fun h => by simp [BtreePage.tableCellKey, List.getElem?_eq_getElem h], fun h => ?_,
      fun j hj hk => (BtreePage.lowerBound_of_key_eq hs hj hk)⟩
    · rw [tableSearch_append extra _ _ _ _ le_rfl]
      exact tableSearch_spec hs bound 0 _ none (Nat.zero_le _) le_rfl (by omega)
        (fun _ _ h => absurd h (Nat.not_lt_zero _)) (fun m hm h => absurd hm (not_lt.2 h))
        (by simp [BtreePage.tableCellKey, BtreePage.nCells])
    · simp [BtreePage.tableCellKey, h, BtreePage.nCells]
  · intro cmp compareRecord hp hc bound hb
    obtain ⟨r, hrun, hspec⟩ := indexSearch_spec hp hc bound 0 page.nCells (Nat.zero_le _) le_rfl
      (by omega) (by simp) (by simp [BtreePage.nCells])
    refine ⟨r, fun extra => (indexSearch_append extra _ _ _ le_rfl).trans hrun, ?_⟩
    cases r with
    | found i => exact hspec
    | notFound m => exact hspec.notFound

/-- On the leaf of the rows `1`, `2` and `11`, searched for `5`: the table search ends at
cell `2`, the lower bound of `5`, and reads the rowid `11` there; the index search, with the
records comparing by their value, finds no equal entry and ends at the same cell. -/
theorem leafPage_binary_searches_lower_bound :
    ((tableLeafPage [1, 2, 11]).cells.map Cell.key).Sorted (· < ·) ∧
    Partitioned (fun p => compare 5 (p.localPayload.getD 2 0)) (tableLeafPage [1, 2, 11]).cells ∧
    tableSearch (tableLeafPage [1, 2, 11]) 5 3 0 3 none = .ok (2, some 11) ∧
    indexSearch (tableLeafPage [1, 2, 11]) (fun p => .ok (compare 5 (p.localPayload.getD 2 0)))
      3 0 3 = .ok (.notFound 2) := by
  have hs : ((tableLeafPage [1, 2, 11]).cells.map Cell.key).Sorted (· < ·) := by decide
  have hp : Partitioned (fun p => compare 5 (p.localPayload.getD 2 0))
      (tableLeafPage [1, 2, 11]).cells := by
    unfold Partitioned Precedes; decide
  have hne : ∀ c ∈ (tableLeafPage [1, 2, 11]).cells,
      compare 5 (c.payload.localPayload.getD 2 0) ≠ .eq := by decide
  obtain ⟨i, hrun, hi, -⟩ :=
    (binary_searches_lower_bound (tableLeafPage [1, 2, 11])).1 hs 5 3 le_rfl
  obtain ⟨r, hrunI, hr⟩ := (binary_searches_lower_bound (tableLeafPage [1, 2, 11])).2 _
    (fun p => .ok (compare 5 (p.localPayload.getD 2 0))) hp (fun _ _ => rfl) 3 le_rfl
  obtain rfl : i = 2 := hi.trans (by decide)
  refine ⟨hs, hp, hrun [], (hrunI []).trans ?_⟩
  cases r with
  | found j => exact absurd hr.2 (hne _ (List.get_mem _ _ _))
  | notFound m => rw [hr.1]; rfl

/-! ### The descent of `index_move_to` -/

section Descent

variable {pager : Pager} {root : PageId} {cmp : PayloadInfo → Ordering}
  {compareRecord : PayloadInfo → Except Error Ordering}

/-- The segments of cells below the keys are below them. -/
theorem Partitioned.flatMap_segment_gt {F : ℕ} {l : List Cell}
    (h : Partitioned cmp (l.flatMap (pager.segment true F)))
    (hl : ∀ c ∈ l, cmp c.payload = .gt) : ∀ x ∈ l.flatMap (pager.segment true F),
      cmp x.payload = .gt := by
  intro x hx
  obtain ⟨c, hc, hxc⟩ := List.mem_flatMap.1 hx
  have hseg : Partitioned cmp (pager.cellsInOrder true F c.leftChild ++ [c]) := by
    simpa [Pager.segment] using (List.pairwise_flatMap.1 h).1 c hc
  rw [Pager.segment, if_pos rfl, List.mem_append, List.mem_singleton] at hxc
  rcases hxc with hxc | rfl
  · exact hseg.gt_of_gt (hl c hc) x hxc
  · exact hl x hc

/-- An interior page holds the segments before the frame's child, that child, and what
the frame has pending. -/
theorem cellsInOrder_interior_split {index : Bool} {h F : ℕ} {f : CursorPage}
    (hsub : pager.Subtree index (h + 1) f.mem) (hl : (pager.page f.mem).pageType.isLeaf = false)
    (hF : h < F) (hi : f.idxCell ≤ (pager.page f.mem).nCells) :
    pager.cellsInOrder index F f.mem =
      ((pager.page f.mem).cells.take f.idxCell).flatMap (pager.segment index F) ++
        (pager.cellsInOrder index F ((pager.page f.mem).childPageId f.idxCell) ++
          pending pager index F f) := by
  rw [Pager.cellsInOrder_eq_contentsFrom hsub hl hF, Pager.contentsFrom_zero _ f.idxCell,
    contentsFrom_eq_pending hi]

variable (pager root) in
/-- The invariant of the descent into the subtree of the current page: the entries left
of it, `pre`, are below the keys, and those right of it, which the parent frames hold,
are above them. -/
structure SeekInv (F : ℕ) (cmp : PayloadInfo → Ordering) (s : BtreeCursor) (pre : List Cell) :
    Prop where
  onPath : OnPath pager root s
  split : pager.cellsInOrder true F root =
    pre ++ (pager.cellsInOrder true F s.currentPage.mem ++
      s.parentPages.flatMap (pending pager true F))
  pre_gt : ∀ c ∈ pre, cmp c.payload = .gt
  post_lt : ∀ c ∈ s.parentPages.flatMap (pending pager true F), cmp c.payload = .lt

variable (pager root) in
/-- Where `index_move_to` leaves the cursor: positioned, either on an entry equal to the
keys, or between the entries below them and those above them; at the end only when
completed. -/
structure SeekResult (F : ℕ) (cmp : PayloadInfo → Ordering) (s : BtreeCursor) : Prop where
  positioned : Positioned pager root true s
  split : ∃ pre, pager.cellsInOrder true F root = pre ++ remaining pager true F s ∧
    ((∃ c ∈ (remaining pager true F s).head?, cmp c.payload = .eq) ∨
      (∀ c ∈ pre, cmp c.payload = .gt) ∧ ∀ c ∈ remaining pager true F s, cmp c.payload = .lt)
  atEnd : s.currentPage.idxCell < s.currentPage.nCells ∨ s.Completed

variable {H F : ℕ} {s : BtreeCursor} {pre : List Cell}

/-- The binary search on the current page finds an equal cell or the split. -/
theorem SeekInv.search (hwf : pager.Subtree true H root) (hF : H ≤ F)
    (hE : Partitioned cmp (pager.cellsInOrder true F root))
    (hcE : ∀ c ∈ pager.cellsInOrder true F root, compareRecord c.payload = .ok (cmp c.payload))
    (hs : SeekInv pager root F cmp s pre) :
    ∃ r, indexSearch (pager.page s.currentPage.mem) compareRecord s.currentPage.nCells 0
      s.currentPage.nCells = .ok r ∧ r.Spec cmp (pager.page s.currentPage.mem).cells := by
  obtain ⟨h, hsub, hle⟩ := hs.onPath.subtree hwf
  have hsl : (pager.page s.currentPage.mem).cells.Sublist (pager.cellsInOrder true F root) := by
    rw [hs.split]
    exact ((Pager.cells_sublist_cellsInOrder (by have := hsub.pos; omega)).trans
      (List.sublist_append_left _ _)).trans (List.sublist_append_right _ _)
  rw [hs.onPath.1.frameOk.1]
  exact indexSearch_spec (hE.sublist hsl) (fun c hc => hcE c (hsl.subset hc)) _ 0 _
    (Nat.zero_le _) le_rfl (by omega) (by simp) (by simp [BtreePage.nCells])

/-- On an equal cell, the descent has found its answer. -/
theorem SeekInv.found {i : ℕ} (hwf : pager.Subtree true H root) (hF : H ≤ F)
    (hs : SeekInv pager root F cmp s pre) (hi : i < (pager.page s.currentPage.mem).cells.length)
    (heq : cmp (pager.page s.currentPage.mem).cells[i].payload = .eq) :
    SeekResult pager root F cmp (s.setIdxCell i).setInitialized := by
  obtain ⟨h, hsub, hle⟩ := hs.onPath.subtree hwf
  have hpos := hsub.pos
  have hn := hs.onPath.1.frameOk.1
  have hhead : (remaining pager true F (s.setIdxCell i).setInitialized).head? =
      some (pager.page s.currentPage.mem).cells[i] := by
    rw [remaining_head? (show i < _ from hi) (.inr rfl)]
    simp [List.getElem?_eq_getElem hi]
  refine ⟨⟨hs.onPath.setIdxCell i, rfl, .inl ⟨hn ▸ hi, .inr rfl⟩⟩, ?_, .inl (hn ▸ hi)⟩
  rcases hl : s.currentPage.isLeaf with _ | _
  · have hpl : (pager.page s.currentPage.mem).pageType.isLeaf = false :=
      hs.onPath.1.frameOk.2.2 ▸ hl
    obtain ⟨h, rfl⟩ : ∃ h', h = h' + 1 := ⟨h - 1, (Nat.sub_add_cancel hpos).symm⟩
    have hsplit := cellsInOrder_interior_split (F := F) (f := { s.currentPage with idxCell := i })
      hsub hpl (by omega) hi.le
    dsimp only at hsplit
    refine ⟨pre ++ (((pager.page s.currentPage.mem).cells.take i).flatMap
      (pager.segment true F) ++ pager.cellsInOrder true F
        ((pager.page s.currentPage.mem).childPageId i)), ?_, .inl ⟨_, hhead, heq⟩⟩
    rw [hs.split, hsplit]
    simp [remaining, hl]
  · have hpl : (pager.page s.currentPage.mem).pageType.isLeaf := hs.onPath.1.frameOk.2.2 ▸ hl
    refine ⟨pre ++ (pager.page s.currentPage.mem).cells.take i, ?_, .inl ⟨_, hhead, heq⟩⟩
    rw [hs.split, Pager.cellsInOrder_of_isLeaf hpl (by omega), remaining_setInitialized,
      remaining_setIdxCell_of_leaf hl, List.append_assoc,
      ← List.append_assoc (List.take _ _), List.take_append_drop]

/-- On a leaf, a cell above the keys after cells below them is the answer. -/
theorem SeekInv.leaf_notFound {m : ℕ} (hwf : pager.Subtree true H root) (hF : H ≤ F)
    (hs : SeekInv pager root F cmp s pre) (hl : s.currentPage.isLeaf)
    (hspec : (IndexSearch.notFound m).Spec cmp (pager.page s.currentPage.mem).cells)
    (hm : m < (pager.page s.currentPage.mem).cells.length) :
    SeekResult pager root F cmp (s.setIdxCell m).setInitialized := by
  obtain ⟨h, hsub, hle⟩ := hs.onPath.subtree hwf
  have hpos := hsub.pos
  have hn := hs.onPath.1.frameOk.1
  have hpl : (pager.page s.currentPage.mem).pageType.isLeaf := hs.onPath.1.frameOk.2.2 ▸ hl
  refine ⟨⟨hs.onPath.setIdxCell m, rfl, .inl ⟨hn ▸ hm, .inl hl⟩⟩,
    ⟨pre ++ (pager.page s.currentPage.mem).cells.take m, ?_, .inr ⟨?_, ?_⟩⟩, .inl (hn ▸ hm)⟩
  · rw [hs.split, Pager.cellsInOrder_of_isLeaf hpl (by omega), remaining_setInitialized,
      remaining_setIdxCell_of_leaf hl, List.append_assoc,
      ← List.append_assoc (List.take _ _), List.take_append_drop]
  · simp only [List.mem_append]
    rintro c (hc | hc)
    exacts [hs.pre_gt c hc, hspec.2.1 c hc]
  · rw [remaining_setInitialized, remaining_setIdxCell_of_leaf hl]
    simp only [List.mem_append]
    rintro c (hc | hc)
    exacts [hspec.2.2 c hc, hs.post_lt c hc]

/-- Past the last cell of a leaf, the climb finds the answer above. -/
theorem SeekInv.climb {f : ℕ} (hwf : pager.Subtree true H root) (hF : H ≤ F)
    (hs : SeekInv pager root F cmp s pre)
    (hspec : (IndexSearch.notFound s.currentPage.nCells).Spec cmp
      (pager.page s.currentPage.mem).cells)
    (hl : s.currentPage.isLeaf) (hf : s.parentPages.length < f) :
    ∃ t, indexClimb f (s.setIdxCell s.currentPage.nCells) = .ok () t ∧
      SeekResult pager root F cmp t.setInitialized := by
  obtain ⟨h, hsub, hle⟩ := hs.onPath.subtree hwf
  have hpos := hsub.pos
  have hn := hs.onPath.1.frameOk.1
  have hpl : (pager.page s.currentPage.mem).pageType.isLeaf := hs.onPath.1.frameOk.2.2 ▸ hl
  obtain ⟨t, hrun, -, ht, hr, hend⟩ := indexClimb_spec (F := F) (n := f)
    (hs.onPath.setIdxCell s.currentPage.nCells) hn hf
  refine ⟨t, hrun, ht, ⟨pre ++ (pager.page s.currentPage.mem).cells, ?_, .inr ⟨?_, ?_⟩⟩, hend⟩
  · rw [remaining_setInitialized, hr, hs.split, Pager.cellsInOrder_of_isLeaf hpl (by omega),
      List.append_assoc]
    rfl
  · have hall := hspec.2.1
    rw [hn, BtreePage.nCells, List.take_length] at hall
    simp only [List.mem_append]
    rintro c (hc | hc)
    exacts [hs.pre_gt c hc, hall c hc]
  · rw [remaining_setInitialized, hr]
    exact hs.post_lt

/-- On an interior page, the invariant holds of the child the search selects. -/
theorem SeekInv.child {m : ℕ} (hwf : pager.Subtree true H root) (hF : H ≤ F)
    (hEp : Partitioned cmp (pager.cellsInOrder true F root))
    (hs : SeekInv pager root F cmp s pre) (hl : s.currentPage.isLeaf = false)
    (hspec : (IndexSearch.notFound m).Spec cmp (pager.page s.currentPage.mem).cells) :
    SeekInv pager root F cmp
      ((s.setIdxCell m).push pager ((pager.page s.currentPage.mem).childPageId m))
      (pre ++ ((pager.page s.currentPage.mem).cells.take m).flatMap (pager.segment true F)) := by
  obtain ⟨h, hsub, hle⟩ := hs.onPath.subtree hwf
  have hpos := hsub.pos
  have hn := hs.onPath.1.frameOk.1
  have hpl : (pager.page s.currentPage.mem).pageType.isLeaf = false :=
    hs.onPath.1.frameOk.2.2 ▸ hl
  obtain ⟨h, rfl⟩ : ∃ h', h = h' + 1 := ⟨h - 1, (Nat.sub_add_cancel hpos).symm⟩
  have hsplit := cellsInOrder_interior_split (F := F) (f := { s.currentPage with idxCell := m })
    hsub hpl (by omega) hspec.1
  dsimp only at hsplit
  have hE := hs.split
  rw [hsplit] at hE
  refine ⟨(hs.onPath.setIdxCell m).push hl (by simpa [hn] using hspec.1), ?_, ?_, ?_⟩
  · rw [hE]
    simp [BtreeCursor.push, CursorPage.new]
  · -- the segments left of the child end in cells below the keys
    have hsl : (((pager.page s.currentPage.mem).cells.take m).flatMap
        (pager.segment true F)).Sublist (pager.cellsInOrder true F root) := by
      rw [hE]
      exact ((List.sublist_append_left _ _).trans (List.sublist_append_left _ _)).trans
        (List.sublist_append_right _ _)
    simp only [List.mem_append]
    rintro c (hc | hc)
    · exact hs.pre_gt c hc
    · exact (hEp.sublist hsl).flatMap_segment_gt hspec.2.1 c hc
  · -- right of the child: the cell the search stopped at, above the keys, and what follows
    simp only [BtreeCursor.push, BtreeCursor.setIdxCell_currentPage,
      BtreeCursor.setIdxCell_parentPages, List.flatMap_cons, List.mem_append]
    rintro c (hc | hc)
    · by_cases hlt : m < (pager.page s.currentPage.mem).nCells
      · have hlt' : m < (pager.page s.currentPage.mem).cells.length := hlt
        have hcm : cmp (pager.page s.currentPage.mem).cells[m].payload = .lt :=
          hspec.2.2 _ (by rw [List.drop_eq_getElem_cons hlt']; exact List.mem_cons_self _ _)
        rw [pending_of_lt (f := { s.currentPage with idxCell := m }) hlt] at hE hc
        simp only [if_true, List.singleton_append, List.mem_cons] at hc
        rcases hc with rfl | hc
        · exact hcm
        · -- the cells after it follow it in the whole index
          have hsub : ((pager.page s.currentPage.mem).cells[m] ::
              pager.contentsFrom true F (pager.page s.currentPage.mem) (m + 1)).Sublist
              (pager.cellsInOrder true F root) := by
            rw [hE]
            simp only [List.append_assoc, if_true, List.singleton_append, List.get_eq_getElem]
            exact List.sublist_append_of_sublist_right <| List.sublist_append_of_sublist_right <|
              List.sublist_append_of_sublist_right <| (List.sublist_append_left _ _).cons₂ _
          exact ((List.pairwise_cons.1 (hEp.sublist hsub)).1 c hc).2 hcm
      · rw [pending_of_le (f := { s.currentPage with idxCell := m }) (Nat.not_lt.mp hlt)] at hc
        exact absurd hc (List.not_mem_nil c)
    · exact hs.post_lt c hc

/-- **The descent of `index_move_to`.** With enough fuel for the depth left, the loop
ends on the answer. -/
theorem indexMoveToLoop_spec (hwf : pager.Subtree true H root) (hF : H ≤ F)
    (hEp : Partitioned cmp (pager.cellsInOrder true F root))
    (hcE : ∀ c ∈ pager.cellsInOrder true F root, compareRecord c.payload = .ok (cmp c.payload)) :
    ∀ (f : ℕ) {s : BtreeCursor} {pre : List Cell}, SeekInv pager root F cmp s pre →
      2 * H ≤ f + s.parentPages.length →
      ∃ s', indexMoveToLoop pager compareRecord f s = .ok () s' ∧ SeekResult pager root F cmp s'
  | 0, s, _, hs, hfuel => by
    obtain ⟨h, hsub, hle⟩ := hs.onPath.subtree hwf
    have := hsub.pos
    omega
  | f + 1, s, pre, hs, hfuel => by
    obtain ⟨h, hsub, hle⟩ := hs.onPath.subtree hwf
    have hpos := hsub.pos
    have hn := hs.onPath.1.frameOk.1
    have hx : s.currentPage.pageType.isIndex := (hs.onPath.pageType hwf).2
    obtain ⟨r, hr, hspec⟩ := hs.search hwf hF hEp hcE
    cases r with
    | found i => exact ⟨_, indexMoveToLoop_found hx hr, hs.found hwf hF hspec.1 hspec.2⟩
    | notFound m =>
      rcases hl : s.currentPage.isLeaf with _ | _
      · -- an interior page: descend into the selected child
        have hpl : (pager.page s.currentPage.mem).pageType.isLeaf = false :=
          hs.onPath.1.frameOk.2.2 ▸ hl
        obtain ⟨h, rfl⟩ : ∃ h', h = h' + 1 := ⟨h - 1, (Nat.sub_add_cancel hpos).symm⟩
        obtain ⟨s', hrun, hres⟩ := indexMoveToLoop_spec hwf hF hEp hcE f
          (hs.child hwf hF hEp hl hspec) (by simp [BtreeCursor.push]; omega)
        exact ⟨s', (indexMoveToLoop_child hx hr hl (hn ▸ hspec.1) hn
          (hsub.child hpl m).1.valid).trans hrun, hres⟩
      · by_cases hm : m = s.currentPage.nCells
        · -- past the leaf's last cell: climb
          subst hm
          obtain ⟨t, hc, ht⟩ := hs.climb (f := f) hwf hF hspec hl (by omega)
          exact ⟨_, indexMoveToLoop_climb hx hr hl hc, ht⟩
        · exact ⟨_, indexMoveToLoop_leaf hx hr hl hm,
            hs.leaf_notFound hwf hF hl hspec
              (lt_of_le_of_ne hspec.1 fun h => hm (h.trans hn.symm))⟩

/-- `index_move_to` starts the descent at the root frame. -/
theorem indexMoveTo_spec {fuel : ℕ} (hwf : pager.Subtree true H root) (hF : H ≤ F)
    (hEp : Partitioned cmp (pager.cellsInOrder true F root))
    (hcE : ∀ c ∈ pager.cellsInOrder true F root, compareRecord c.payload = .ok (cmp c.payload))
    (hr : RootOk pager root s) (hfuel : 2 * H ≤ fuel) :
    ∃ s', indexMoveTo pager fuel compareRecord s = .ok () s' ∧ SeekResult pager root F cmp s' := by
  have hs : SeekInv pager root F cmp { s with currentPage := s.bottom, parentPages := [] } [] :=
    ⟨⟨⟨hr.1, hr.2⟩, by simp⟩, by simp [hr.1], by simp, by simp⟩
  obtain ⟨s', hrun, hres⟩ := indexMoveToLoop_spec hwf hF hEp hcE fuel hs (by simpa using hfuel)
  exact ⟨s', by simpa [indexMoveTo, moveToRoot] using hrun, hres⟩

end Descent

/-! ### Entries compared in three bands -/

section Bands

variable {l : List Cell} {cmp : PayloadInfo → Ordering} {a b : ℕ}

/-- Entries that compare `Greater` before position `a`, `Equal` from `a` to `b` and `Less`
from `b` on are partitioned. -/
theorem partitioned_of_band
    (hE : ∀ j (hj : j < l.length),
      cmp l[j].payload = if j < a then .gt else if j < b then .eq else .lt) :
    Partitioned cmp l := by
  refine List.pairwise_iff_getElem.2 fun i j hi hj hij => ?_
  simp only [Precedes, hE i hi, hE j hj]
  split_ifs <;> simp <;> omega

/-- Where a split of such entries answers a seek: at an equal entry, in `[a, b)`, or, when
there is none, between those below the keys and those above them, at `a`. -/
theorem band_position {pre rest : List Cell}
    (hE : ∀ j (hj : j < l.length),
      cmp l[j].payload = if j < a then .gt else if j < b then .eq else .lt)
    (hab : a ≤ b) (hb : b ≤ l.length) (hl : l = pre ++ rest)
    (hans : (∃ c ∈ rest.head?, cmp c.payload = .eq) ∨
      (∀ c ∈ pre, cmp c.payload = .gt) ∧ ∀ c ∈ rest, cmp c.payload = .lt) :
    if a < b then a ≤ pre.length ∧ pre.length < b else pre.length = a := by
  have hdrop : l.drop pre.length = rest := by rw [hl, List.drop_left]
  have hlen : pre.length ≤ l.length := by rw [hl, List.length_append]; omega
  rcases hans with ⟨c, hc, heq⟩ | ⟨hpre, hrem⟩
  · -- on an equal entry
    rw [← hdrop, List.head?_drop, Option.mem_def, List.getElem?_eq_some_iff] at hc
    obtain ⟨hj, rfl⟩ := hc
    rw [hE _ hj] at heq
    split_ifs at heq
    rw [if_pos (by omega)]
    omega
  · -- between the entries below the keys and those above them
    have htake : l.take pre.length = pre := by rw [hl, List.take_left]
    have hbelow : ∀ i < pre.length, i < a := fun i hi => by
      have := hpre _ (htake ▸ List.mem_take_iff_getElem.2 ⟨i, by simp; omega, rfl⟩)
      rw [hE i (by omega)] at this
      split_ifs at this with h1
      exact h1
    have habove : ∀ i, pre.length ≤ i → (hi : i < l.length) → b ≤ i := fun i hji hi => by
      obtain ⟨d, rfl⟩ : ∃ d, i = pre.length + d := ⟨i - pre.length, by omega⟩
      have := hrem _ (hdrop ▸ List.mem_drop_iff_getElem.2 ⟨d, by omega, rfl⟩)
      rw [hE _ hi] at this
      split_ifs at this
      omega
    have hja : pre.length ≤ a := Nat.not_lt.1 fun h => lt_irrefl a (hbelow a h)
    have haj : a ≤ pre.length := Nat.not_lt.1 fun h => by
      have := habove _ le_rfl (by omega)
      omega
    split_ifs with h
    · exact absurd (habove a hja (by omega)) (by omega)
    · omega

end Bands

/-! ### `index_move_to` then `move_next` -/

variable {pager : Pager} {root : PageId}

/-- `index_move_to` over entries compared in three bands: the cursor ends positioned at an
entry `j` of the band of equal ones, or at `a` when that band is empty, with the entries
from `j` on still to come. -/
theorem indexMoveTo_band {H fuel a b : ℕ} {s : BtreeCursor}
    {compareRecord : PayloadInfo → Except Error Ordering}
    (hwf : pager.Subtree true H root) (hr : RootOk pager root s) (hfuel : 2 * H ≤ fuel)
    (hab : a ≤ b) (hb : b ≤ (pager.cellsInOrder true H root).length)
    (hcmp : ∀ j (hj : j < (pager.cellsInOrder true H root).length),
      compareRecord (pager.cellsInOrder true H root)[j].payload =
        .ok (if j < a then .gt else if j < b then .eq else .lt)) :
    ∃ j s', indexMoveTo pager fuel compareRecord s = .ok () s' ∧
      (if a < b then a ≤ j ∧ j < b else j = a) ∧ Positioned pager root true s' ∧
      remaining pager true H s' = (pager.cellsInOrder true H root).drop j := by
  let cmp : PayloadInfo → Ordering := fun p => match compareRecord p with
    | .ok o => o
    | .error _ => .eq
  have hcmpE : ∀ j (hj : j < (pager.cellsInOrder true H root).length),
      cmp (pager.cellsInOrder true H root)[j].payload =
        if j < a then .gt else if j < b then .eq else .lt := fun j hj => by
    simp only [cmp, hcmp j hj]
  have hcE : ∀ c ∈ pager.cellsInOrder true H root,
      compareRecord c.payload = .ok (cmp c.payload) := by
    intro c hc
    obtain ⟨j, hj, rfl⟩ := List.getElem_of_mem hc
    rw [hcmp j hj, hcmpE j hj]
  obtain ⟨s', hrun, hres⟩ := indexMoveTo_spec hwf le_rfl (partitioned_of_band hcmpE) hcE hr hfuel
  obtain ⟨pre, hsplit, hans⟩ := hres.split
  exact ⟨pre.length, s', hrun, band_position hcmpE hab hb hsplit hans, hres.positioned,
    by rw [hsplit, List.drop_left]⟩

/-- **`index_move_to`.** On a well-formed index tree whose entries `e_0, …, e_{m-1}`, in
order, compare `Greater` to the keys before position `a`, `Equal` from `a` to `b` and
`Less` from `b` on, and from any state with a correct root frame, `index_move_to` puts
the cursor at an entry `e_j`: an equal one if there is one, else the first one above the
keys, else the end, where the cursor is completed. Then `get_index_payload` after `k`
calls of `move_next` reads `e_{j+k}`, and `None` past the last entry. -/
theorem index_seek {H fuel a b : ℕ} {s : BtreeCursor}
    {compareRecord : PayloadInfo → Except Error Ordering}
    (hwf : pager.Subtree true H root) (hr : RootOk pager root s) (hfuel : 2 * H ≤ fuel)
    (hab : a ≤ b) (hb : b ≤ (pager.cellsInOrder true H root).length)
    (hcmp : ∀ j (hj : j < (pager.cellsInOrder true H root).length),
      compareRecord (pager.cellsInOrder true H root)[j].payload =
        .ok (if j < a then .gt else if j < b then .eq else .lt)) :
    ∃ j s', indexMoveTo pager fuel compareRecord s = .ok () s' ∧
      (if a < b then a ≤ j ∧ j < b else j = a) ∧
      (j = (pager.cellsInOrder true H root).length → s'.Completed) ∧
      ∀ k ≤ (pager.cellsInOrder true H root).length - j, ∃ s'',
        moveNextN pager fuel k s' = .ok () s'' ∧
        getIndexPayload pager s'' =
          .ok ((pager.cellsInOrder true H root)[j + k]?.map Cell.payload) := by
  -- the comparator as a total function on the entries
  let cmp : PayloadInfo → Ordering := fun p => match compareRecord p with
    | .ok o => o
    | .error _ => .eq
  have hcmpE : ∀ j (hj : j < (pager.cellsInOrder true H root).length),
      cmp (pager.cellsInOrder true H root)[j].payload =
        if j < a then .gt else if j < b then .eq else .lt := fun j hj => by
    simp only [cmp, hcmp j hj]
  have hcE : ∀ c ∈ pager.cellsInOrder true H root,
      compareRecord c.payload = .ok (cmp c.payload) := by
    intro c hc
    obtain ⟨j, hj, rfl⟩ := List.getElem_of_mem hc
    rw [hcmp j hj, hcmpE j hj]
  obtain ⟨s', hrun, hres⟩ := indexMoveTo_spec hwf le_rfl (partitioned_of_band hcmpE) hcE hr hfuel
  obtain ⟨pre, hsplit, hans⟩ := hres.split
  have hdrop : remaining pager true H s' = (pager.cellsInOrder true H root).drop pre.length := by
    rw [hsplit, List.drop_left]
  refine ⟨pre.length, s', hrun, band_position hcmpE hab hb hsplit hans, fun hj => ?_,
    fun k hk => ?_⟩
  · -- at the end, the cursor is completed
    rcases hres.atEnd with hc | hc
    · have hn := hres.positioned.onPath.1.frameOk.1
      have hc' : s'.currentPage.idxCell < (pager.page s'.currentPage.mem).nCells := hn ▸ hc
      have hhead := remaining_head? (F := H) hc' (.inr rfl)
      rw [hdrop, hj, List.drop_length, List.head?_nil, List.getElem?_eq_getElem hc'] at hhead
      exact absurd hhead (Option.noConfusion)
    · exact hc
  · -- then `move_next` reads on from there
    obtain ⟨s'', hk', hs'', hr''⟩ := moveNextN_spec
      (fun t ht hc => moveNext_index_spec hwf (by omega : H ≤ fuel) le_rfl ht hc) hres.positioned k
      (by rw [hdrop, List.length_drop]; exact hk)
    refine ⟨s'', hk', ?_⟩
    rw [getIndexPayload_eq (F := H) hwf hs'', hr'', hdrop, List.drop_drop, List.head?_drop]

/-- Seeking the value `20` in `twoLevelIndex`, comparing it with each entry's first
column. -/
theorem twoLevelIndex_seek :
    twoLevelIndex.Subtree true 2 2 ∧
    RootOk twoLevelIndex 2 ⟨CursorPage.new twoLevelIndex 2, [], false⟩ ∧
    ∃ j s', indexMoveTo twoLevelIndex 4 (fun p => .ok (compare 20 (p.localPayload.getD 3 0)))
        ⟨CursorPage.new twoLevelIndex 2, [], false⟩ = .ok () s' ∧
      (if 1 < 2 then 1 ≤ j ∧ j < 2 else j = 1) ∧
      (j = (twoLevelIndex.cellsInOrder true 2 2).length → s'.Completed) ∧
      ∀ k ≤ (twoLevelIndex.cellsInOrder true 2 2).length - j, ∃ s'',
        moveNextN twoLevelIndex 4 k s' = .ok () s'' ∧
        getIndexPayload twoLevelIndex s'' =
          .ok ((twoLevelIndex.cellsInOrder true 2 2)[j + k]?.map Cell.payload) :=
  ⟨by decide, ⟨rfl, rfl, rfl, rfl⟩,
    index_seek (by decide) ⟨rfl, rfl, rfl, rfl⟩ le_rfl (by decide) (by decide)
      fun j _ => congrArg Except.ok (by revert j; decide)⟩

/-! ### Where the code departs from its contract -/

/-- On `twoLevelTable`, whose separator `10` is above its left leaf's keys `1, 2`,
`table_move_to(5)` descends into the left leaf and returns `None`, although the tree
holds the rows `11` and `12` above `5`. -/
theorem tableMoveTo_misses_next_leaf :
    twoLevelTable.Subtree false 2 2 ∧ twoLevelTable.TableOrdered 2 2 ∧
    (twoLevelTable.cellsInOrder false 2 2).map Cell.key = [1, 2, 11, 12] ∧
    tableMoveTo twoLevelTable 2 5 ⟨CursorPage.new twoLevelTable 2, [], false⟩ =
      .ok none ⟨⟨3, 2, 2, .tableLeaf, true⟩, [⟨2, 0, 1, .tableInterior, false⟩], true⟩ ∧
    getTableKey twoLevelTable
      ⟨⟨3, 2, 2, .tableLeaf, true⟩, [⟨2, 0, 1, .tableInterior, false⟩], true⟩ = .ok none :=
  ⟨by decide, by decide, by decide, rfl, rfl⟩

/-- Two states of `twoLevelTable` in which `get_table_payload` returns `None`, and from
which `move_next` fails an assertion: after `table_move_to(20)`, a key above every row,
the cursor is past the last cell of the right leaf; after a full traversal it is at
`idx_cell = n_cells + 2` on the root, which `move_next` does not take for completed. -/
theorem moveNext_panics_at_end :
    (tableMoveTo twoLevelTable 2 20 ⟨CursorPage.new twoLevelTable 2, [], false⟩ =
        .ok none ⟨⟨4, 2, 2, .tableLeaf, true⟩, [⟨2, 1, 1, .tableInterior, false⟩], true⟩ ∧
      getTablePayload twoLevelTable
        ⟨⟨4, 2, 2, .tableLeaf, true⟩, [⟨2, 1, 1, .tableInterior, false⟩], true⟩ = .ok none ∧
      ∃ t, moveNext twoLevelTable 2
        ⟨⟨4, 2, 2, .tableLeaf, true⟩, [⟨2, 1, 1, .tableInterior, false⟩], true⟩ =
          .error (.panic "assertion failed: self.current_page.idx_cell == self.current_page.n_cells")
            t) ∧
    ((do moveToFirst twoLevelTable 2; moveNextN twoLevelTable 2 4 : CursorM Unit)
        ⟨CursorPage.new twoLevelTable 2, [], false⟩ = .ok () ⟨⟨2, 3, 1, .tableInterior, false⟩, [], true⟩ ∧
      getTablePayload twoLevelTable ⟨⟨2, 3, 1, .tableInterior, false⟩, [], true⟩ = .ok none ∧
      ∃ t, moveNext twoLevelTable 2 ⟨⟨2, 3, 1, .tableInterior, false⟩, [], true⟩ =
        .error (.panic "assertion failed: self.current_page.is_leaf") t) :=
  ⟨⟨rfl, rfl, _, rfl⟩, ⟨rfl, rfl, _, rfl⟩⟩

end Prsqlite
