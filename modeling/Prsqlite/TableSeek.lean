import Prsqlite.Path

/-!
# Seeking a Rowid

`table_move_to(key)` descends from the root of a table tree: on each page a binary search
finds the first cell whose rowid is not below `key`, and the cursor follows that cell's
left child, or the right child past the last cell. `BtreePage.lowerBound` is that
position, the number of leading cells with a smaller rowid, and `Pager.leafFor` is the
leaf on which the descent ends.

In an ordered table tree the descent is exact: a row with rowid `key` can only be on
`leafFor key` (`mem_leafFor`), so `table_move_to` returns `Some(key)` exactly when the
table holds `key` (`tableMoveTo_eq_some_iff`). The conflict check of an `INSERT` relies
on this. The least rowid above `key` may sit on the next leaf, which the descent does not
visit (`tableMoveTo_misses_next_leaf`).

`move_to_last` follows the right children down to the last leaf and stops on its last
cell, so that `get_table_key` reads the largest rowid (`moveToLast_spec`). This needs the
root to be a leaf or to hold a cell: on an interior root without cells `move_to_last`
takes the table for empty.

## Main results

* `tableSearch_spec`: the binary search returns the lower bound and the rowid there.
* `tableMoveTo_spec`: `table_move_to` ends on `leafFor key`, at the lower bound.
* `tableMoveTo_eq_some_iff`: it returns `Some(key)` iff the table holds `key`.
* `moveToLast_spec`: `move_to_last` and then `get_table_key` read the last rowid.
-/

namespace Prsqlite

/-! ### The lower bound of a page -/

namespace BtreePage

/-- The number of leading cells of `p` whose rowid is below `key`. -/
def lowerBound (p : BtreePage) (key : ℤ) : ℕ := (p.cells.takeWhile fun c => c.key < key).length

variable {p : BtreePage} {key : ℤ}

/-- The lower bound is a position of the page, `n_cells` at most. -/
theorem lowerBound_le (p : BtreePage) (key : ℤ) : p.lowerBound key ≤ p.nCells :=
  (List.takeWhile_sublist _).length_le

/-- The cells before the lower bound have a smaller rowid. -/
theorem key_lt_of_lt_lowerBound {m : ℕ} (hn : m < p.nCells) (hm : m < p.lowerBound key) :
    (p.cells.get ⟨m, hn⟩).key < key := by
  obtain ⟨_, _, _, _, _, cells⟩ := p
  simp only [nCells, lowerBound, List.get_eq_getElem] at hn hm ⊢
  induction cells generalizing m with
  | nil => exact absurd hn (Nat.not_lt_zero _)
  | cons c cs ih =>
    by_cases hc : c.key < key
    · rw [List.takeWhile_cons_of_pos (by simpa using hc), List.length_cons] at hm
      cases m with
      | zero => simpa using hc
      | succ m => simpa using ih (Nat.lt_of_succ_lt_succ hn) (Nat.lt_of_succ_lt_succ hm)
    · rw [List.takeWhile_cons_of_neg (by simpa using hc)] at hm
      exact absurd hm (Nat.not_lt_zero _)

/-- On a page whose rowids ascend, the cells from the lower bound on have a rowid at least
`key`. -/
theorem le_key_of_lowerBound_le (hs : (p.cells.map Cell.key).Sorted (· < ·)) {m : ℕ}
    (hn : m < p.nCells) (hm : p.lowerBound key ≤ m) : key ≤ (p.cells.get ⟨m, hn⟩).key := by
  obtain ⟨_, _, _, _, _, cells⟩ := p
  simp only [nCells, lowerBound, List.get_eq_getElem] at hs hn hm ⊢
  induction cells generalizing m with
  | nil => exact absurd hn (Nat.not_lt_zero _)
  | cons c cs ih =>
    rw [List.map_cons, List.sorted_cons] at hs
    by_cases hc : c.key < key
    · rw [List.takeWhile_cons_of_pos (by simpa using hc), List.length_cons] at hm
      obtain ⟨m, rfl⟩ : ∃ m', m = m' + 1 := ⟨m - 1, by omega⟩
      simpa using ih hs.2 (Nat.lt_of_succ_lt_succ hn) (by omega)
    · cases m with
      | zero => simpa using hc
      | succ m =>
        have hlt := hs.1 _ (List.mem_map_of_mem Cell.key (List.getElem_mem
          (Nat.lt_of_succ_lt_succ hn)))
        simp only [List.get_eq_getElem, List.getElem_cons_succ]
        omega

/-- The lower bound is the position that splits the page's cells into those below `key`
and the rest. -/
theorem lowerBound_eq (hs : (p.cells.map Cell.key).Sorted (· < ·)) {i : ℕ} (hi : i ≤ p.nCells)
    (hlo : ∀ m (hm : m < p.nCells), m < i → (p.cells.get ⟨m, hm⟩).key < key)
    (hhi : ∀ m (hm : m < p.nCells), i ≤ m → key ≤ (p.cells.get ⟨m, hm⟩).key) :
    p.lowerBound key = i := by
  rcases lt_trichotomy (p.lowerBound key) i with h | h | h
  · have hn : p.lowerBound key < p.nCells := by omega
    exact absurd (hlo _ hn h) (not_lt.2 (le_key_of_lowerBound_le hs hn le_rfl))
  · exact h
  · have hn : i < p.nCells := lt_of_lt_of_le h (p.lowerBound_le key)
    exact absurd (key_lt_of_lt_lowerBound hn h) (not_lt.2 (hhi i hn le_rfl))

/-- A cell before the lower bound has a smaller rowid. -/
theorem key_lt_of_mem_take {a : Cell} (ha : a ∈ p.cells.take (p.lowerBound key)) :
    a.key < key := by
  obtain ⟨m, hm, rfl⟩ := List.getElem_of_mem ha
  rw [List.length_take] at hm
  rw [List.getElem_take]
  exact key_lt_of_lt_lowerBound (by unfold nCells; omega) (by omega)

/-- On a page of ascending rowids, a cell from the lower bound on has a rowid at least `key`. -/
theorem le_key_of_mem_drop (hs : (p.cells.map Cell.key).Sorted (· < ·)) {b : Cell}
    (hb : b ∈ p.cells.drop (p.lowerBound key)) : key ≤ b.key := by
  obtain ⟨m, hm, rfl⟩ := List.getElem_of_mem hb
  rw [List.length_drop] at hm
  rw [List.getElem_drop]
  exact le_key_of_lowerBound_le hs (by unfold nCells; omega) (by omega)

end BtreePage

/-- In cells whose rowids ascend, an earlier cell has a smaller rowid. -/
theorem key_lt_key_of_sorted {cells : List Cell} (hs : (cells.map Cell.key).Sorted (· < ·))
    {a b : ℕ} (hab : a < b) (hb : b < cells.length) :
    (cells.get ⟨a, hab.trans hb⟩).key < (cells.get ⟨b, hb⟩).key :=
  List.pairwise_iff_getElem.1 (List.pairwise_map.1 hs) a b _ hb hab

/-! ### The binary search of `table_move_to` -/

section Search

variable {page : BtreePage} {key : ℤ}

/-- **The binary search.** On a page whose rowids ascend, if the cells before `i_min` are
below `key`, those from `i_max` on above it, and `max_cell_key` is the rowid of cell
`i_max`, a bound on the interval's width suffices for the search to return the lower
bound and the rowid of the cell there. -/
theorem tableSearch_spec (hs : (page.cells.map Cell.key).Sorted (· < ·)) :
    ∀ (bound iMin iMax : ℕ) (maxCellKey : Option ℤ), iMin ≤ iMax → iMax ≤ page.nCells →
      iMax - iMin ≤ bound →
      (∀ m (hm : m < page.nCells), m < iMin → (page.cells.get ⟨m, hm⟩).key < key) →
      (∀ m (hm : m < page.nCells), iMax ≤ m → key < (page.cells.get ⟨m, hm⟩).key) →
      maxCellKey = page.tableCellKey iMax →
      tableSearch page key bound iMin iMax maxCellKey =
        .ok (page.lowerBound key, page.tableCellKey (page.lowerBound key))
  | 0, iMin, iMax, _, hle, hmax, hb, hlo, hhi, hk => by
    obtain rfl : iMin = iMax := by omega
    rw [BtreePage.lowerBound_eq hs hmax hlo fun m hm him => (hhi m hm him).le, hk]
    rfl
  | bound + 1, iMin, iMax, maxCellKey, hle, hmax, hb, hlo, hhi, hk => by
    by_cases hlt : iMin < iMax
    · have hm : (iMin + iMax) / 2 < page.nCells := lt_of_lt_of_le (by omega) hmax
      have hcell : page.tableCellKey ((iMin + iMax) / 2) =
          some (page.cells.get ⟨(iMin + iMax) / 2, hm⟩).key := by
        simp [BtreePage.tableCellKey, List.getElem?_eq_getElem hm]
      rw [tableSearch, if_pos hlt]
      simp only [hcell]
      rcases hr : compare key (page.cells.get ⟨(iMin + iMax) / 2, hm⟩).key
      · -- below the middle cell: it and the upper half are above `key`
        have hr' := compare_lt_iff_lt.1 hr
        refine tableSearch_spec hs bound _ _ _ (by omega) (by omega) (by omega) hlo
          (fun m hm' him => ?_) hcell.symm
        rcases Nat.lt_or_eq_of_le him with h | rfl
        · exact hr'.trans (key_lt_key_of_sorted hs h hm')
        · exact hr'
      · -- equal to the middle cell, which is therefore the lower bound
        have hr' := compare_eq_iff_eq.1 hr
        rw [BtreePage.lowerBound_eq hs hm.le (fun m hm' him => ?_) (fun m hm' him => ?_), hcell]
        · exact hr' ▸ key_lt_key_of_sorted hs him hm
        · rcases Nat.lt_or_eq_of_le him with h | rfl
          · exact hr' ▸ (key_lt_key_of_sorted hs h hm').le
          · exact hr'.le
      · -- above the middle cell: it and the lower half are below `key`
        have hr' := compare_gt_iff_gt.1 hr
        refine tableSearch_spec hs bound _ _ _ (by omega) hmax (by omega)
          (fun m hm' him => ?_) hhi hk
        rcases Nat.lt_or_eq_of_le (Nat.le_of_lt_succ him) with h | rfl
        · exact (key_lt_key_of_sorted hs h hm).trans hr'
        · exact hr'
    · obtain rfl : iMin = iMax := by omega
      rw [tableSearch, if_neg hlt, BtreePage.lowerBound_eq hs hmax hlo
        fun m hm him => (hhi m hm him).le, hk]

/-- The search of `table_move_to` over a whole page. -/
theorem tableSearch_page (key : ℤ) (hs : (page.cells.map Cell.key).Sorted (· < ·)) :
    tableSearch page key page.nCells 0 page.nCells none =
      .ok (page.lowerBound key, page.tableCellKey (page.lowerBound key)) :=
  tableSearch_spec hs _ _ _ _ (Nat.zero_le _) le_rfl (Nat.sub_zero _).le
    (fun _ _ h => absurd h (Nat.not_lt_zero _)) (fun m hm h => absurd hm (not_lt.2 h))
    (by simp [BtreePage.tableCellKey, BtreePage.nCells])

/-- The search reads no cell from `i_max` on: whatever follows the page's cells, it returns
the same. -/
theorem tableSearch_append (extra : List Cell) : ∀ (bound iMin iMax : ℕ) (maxCellKey : Option ℤ),
    iMax ≤ page.nCells →
    tableSearch { page with cells := page.cells ++ extra } key bound iMin iMax maxCellKey =
      tableSearch page key bound iMin iMax maxCellKey
  | 0, _, _, _, _ => rfl
  | bound + 1, iMin, iMax, maxCellKey, hmax => by
    by_cases hlt : iMin < iMax
    · have hm : (iMin + iMax) / 2 < page.cells.length := lt_of_lt_of_le (by omega) hmax
      have hcell : ({ page with cells := page.cells ++ extra } : BtreePage).tableCellKey
          ((iMin + iMax) / 2) = page.tableCellKey ((iMin + iMax) / 2) := by
        simp [BtreePage.tableCellKey, List.getElem?_append_left hm]
      simp only [tableSearch, if_pos hlt, hcell]
      rcases page.tableCellKey ((iMin + iMax) / 2) with _ | cellKey
      · rfl
      · dsimp only
        rcases compare key cellKey
        · exact tableSearch_append extra bound _ _ _ (by omega)
        · rfl
        · exact tableSearch_append extra bound _ _ _ hmax
    · simp only [tableSearch, if_neg hlt]

end Search

/-- On a page whose rowids ascend, the lower bound is the number of cells below `key`. -/
theorem BtreePage.lowerBound_eq_countP {p : BtreePage} {key : ℤ}
    (hs : (p.cells.map Cell.key).Sorted (· < ·)) :
    p.lowerBound key = p.cells.countP fun c => c.key < key := by
  conv_rhs => rw [← List.take_append_drop (p.lowerBound key) p.cells]
  rw [List.countP_append, List.countP_eq_length.2 fun a ha => by simpa using key_lt_of_mem_take ha,
    List.countP_eq_zero.2 fun b hb => by simpa using le_key_of_mem_drop hs hb, List.length_take,
    Nat.add_zero]
  exact (min_eq_left (p.lowerBound_le key)).symm

/-- On a page whose rowids ascend, a cell with rowid `key` is at the lower bound. -/
theorem BtreePage.lowerBound_of_key_eq {p : BtreePage} {key : ℤ}
    (hs : (p.cells.map Cell.key).Sorted (· < ·)) {j : ℕ} (hj : j < p.nCells)
    (hk : (p.cells.get ⟨j, hj⟩).key = key) : p.lowerBound key = j :=
  p.lowerBound_eq hs hj.le (fun _ hm him => hk ▸ key_lt_key_of_sorted hs him hj)
    fun _ hm him => by
      rcases Nat.lt_or_eq_of_le him with h | rfl
      · exact hk ▸ (key_lt_key_of_sorted hs h hm).le
      · exact hk.ge

/-! ### The descent -/

namespace Pager

variable (pager : Pager)

/-- The leaf on which the descent of `table_move_to` for `key` ends, below `pid`. -/
def leafFor (key : ℤ) : ℕ → PageId → PageId
  | 0, pid => pid
  | h + 1, pid =>
    if (pager.page pid).pageType.isLeaf then pid
    else leafFor key h ((pager.page pid).childPageId ((pager.page pid).lowerBound key))

variable {pager} {key : ℤ} {h : ℕ} {pid : PageId}

/-- The leaf for a rowid under a leaf is the leaf itself. -/
theorem leafFor_succ_of_isLeaf (hl : (pager.page pid).pageType.isLeaf) :
    pager.leafFor key (h + 1) pid = pid := by
  rw [leafFor, if_pos hl]

/-- Under an interior page it is the leaf under the child at the rowid's lower bound. -/
theorem leafFor_succ_of_not_isLeaf (hl : (pager.page pid).pageType.isLeaf = false) :
    pager.leafFor key (h + 1) pid =
      pager.leafFor key h ((pager.page pid).childPageId ((pager.page pid).lowerBound key)) := by
  rw [leafFor, if_neg (by simp [hl])]

/-- The rows of a table tree from child `i` of an interior page on are the rows of the
children `i ..= n`. -/
theorem mem_contentsFrom_iff {p : BtreePage} {i : ℕ} (hi : i ≤ p.nCells) {r : Cell} :
    r ∈ pager.contentsFrom false h p i ↔
      ∃ m, i ≤ m ∧ m ≤ p.nCells ∧ r ∈ pager.cellsInOrder false h (p.childPageId m) := by
  obtain ⟨k, hk⟩ : ∃ k, p.nCells = i + k := ⟨_, (Nat.add_sub_cancel' hi).symm⟩
  induction k generalizing i with
  | zero =>
    rw [Nat.add_zero] at hk
    subst hk
    rw [contentsFrom_nCells, ← BtreePage.childPageId_of_le le_rfl]
    refine ⟨fun hr => ⟨_, le_rfl, le_rfl, hr⟩, ?_⟩
    rintro ⟨m, h1, h2, hr⟩
    rwa [le_antisymm h2 h1] at hr
  | succ k ih =>
    have hlt : i < p.nCells := by omega
    rw [contentsFrom_of_lt hlt, if_neg Bool.false_ne_true, List.nil_append, List.mem_append,
      ih (by omega) (by omega)]
    constructor
    · rintro (hr | ⟨m, h1, h2, hr⟩)
      · exact ⟨i, le_rfl, hlt.le, hr⟩
      · exact ⟨m, by omega, h2, hr⟩
    · rintro ⟨m, h1, h2, hr⟩
      rcases Nat.lt_or_eq_of_le h1 with h1 | rfl
      · exact Or.inr ⟨m, h1, h2, hr⟩
      · exact Or.inl hr

/-- The leaf of the descent is a table leaf of the tree, with ascending rowids, and its
rows are rows of the tree. -/
theorem leafFor_spec (key : ℤ) : ∀ {h : ℕ} {pid : PageId}, pager.Subtree false h pid →
    pager.TableOrdered h pid →
    (pager.page (pager.leafFor key h pid)).pageType = .tableLeaf ∧
      ((pager.page (pager.leafFor key h pid)).cells.map Cell.key).Sorted (· < ·) ∧
      ∀ r ∈ (pager.page (pager.leafFor key h pid)).cells, r ∈ pager.cellsInOrder false h pid
  | 0, _, hs, _ => hs.elim
  | h + 1, pid, hs, ho => by
    rcases hl : (pager.page pid).pageType.isLeaf with _ | _
    · obtain ⟨ht, hsorted, hsub⟩ := leafFor_spec key (hs.child hl _).1
        ((ho.2 hl).1 _ (BtreePage.childPageId_mem _ _))
      rw [leafFor_succ_of_not_isLeaf hl]
      refine ⟨ht, hsorted, fun r hr => ?_⟩
      rw [cellsInOrder_succ_of_not_isLeaf hl, mem_contentsFrom_iff (Nat.zero_le _)]
      exact ⟨_, Nat.zero_le _, BtreePage.lowerBound_le _ _, hsub r hr⟩
    · rw [leafFor_succ_of_isLeaf hl, cellsInOrder_succ_of_isLeaf hl]
      refine ⟨?_, ho.1, fun _ => id⟩
      rcases hs.pageType with ht | ht <;> simp_all [BtreePageType.leaf]

/-- **The descent is exact.** In an ordered table tree, a row with rowid `key` is on the
leaf the descent for `key` ends on. -/
theorem mem_leafFor : ∀ {h : ℕ} {pid : PageId}, pager.Subtree false h pid →
    pager.TableOrdered h pid → ∀ r ∈ pager.cellsInOrder false h pid, r.key = key →
      r ∈ (pager.page (pager.leafFor key h pid)).cells
  | 0, _, hs, _ => hs.elim
  | h + 1, pid, hs, ho => by
    intro r hr hk
    rcases hl : (pager.page pid).pageType.isLeaf with _ | _
    · obtain ⟨hchild, hsep⟩ := ho.2 hl
      rw [cellsInOrder_succ_of_not_isLeaf hl, mem_contentsFrom_iff (Nat.zero_le _)] at hr
      obtain ⟨m, -, hm, hr⟩ := hr
      obtain rfl : m = (pager.page pid).lowerBound key := by
        rcases lt_trichotomy m ((pager.page pid).lowerBound key) with hj | hj | hj
        · -- left of the descent: rowids at most the separator, which is below `key`
          have hmn := lt_of_lt_of_le hj ((pager.page pid).lowerBound_le key)
          have := (hsep m hmn).1 r hr
          have := BtreePage.key_lt_of_lt_lowerBound hmn hj
          omega
        · exact hj
        · -- right of the descent: rowids above the separator, which is at least `key`
          have hjn := lt_of_lt_of_le hj hm
          have := (hsep _ hjn).2 r ((mem_contentsFrom_iff hjn).2 ⟨m, hj, hm, hr⟩)
          have := BtreePage.le_key_of_lowerBound_le ho.1 hjn le_rfl
          omega
      rw [leafFor_succ_of_not_isLeaf hl]
      exact mem_leafFor (hs.child hl _).1 ((hchild _ (BtreePage.childPageId_mem _ _))) r hr hk
    · rwa [leafFor_succ_of_isLeaf hl,
        ← (cellsInOrder_succ_of_isLeaf hl : pager.cellsInOrder false (h + 1) pid = _)]

end Pager

/-! ### `table_move_to` -/

section TableMoveTo

variable {pager : Pager} {root : PageId} {key : ℤ}

/-- **The descent of `table_move_to`.** From a frame of `pid`, the loop ends on a frame of
`leafFor key`, at the lower bound, and returns the rowid of the cell there. -/
theorem tableMoveToLoop_spec (key : ℤ) : ∀ (fuel : ℕ) {h : ℕ} {s : BtreeCursor},
    pager.Subtree false h s.currentPage.mem → pager.TableOrdered h s.currentPage.mem →
    h ≤ fuel → FrameOk pager s.currentPage →
    ∃ s', tableMoveToLoop pager key fuel s =
        .ok ((pager.page (pager.leafFor key h s.currentPage.mem)).tableCellKey
          ((pager.page (pager.leafFor key h s.currentPage.mem)).lowerBound key)) s' ∧
      s'.currentPage = { CursorPage.new pager (pager.leafFor key h s.currentPage.mem) with
        idxCell := (pager.page (pager.leafFor key h s.currentPage.mem)).lowerBound key } ∧
      s'.initialized ∧
      ((pager.page s.currentPage.mem).pageType.isLeaf → s'.parentPages = s.parentPages)
  | 0, _, _, hs, _, hh, _ => absurd hs.pos (by omega)
  | fuel + 1, h, s, hs, ho, hh, hf => by
    obtain ⟨h, rfl⟩ : ∃ h', h = h' + 1 := ⟨h - 1, by have := hs.pos; omega⟩
    have hx : s.currentPage.pageType.isTable := by
      rw [hf.2.1]; rcases hs.pageType with ht | ht <;> simp [ht]
    have hsearch := hf.1 ▸ tableSearch_page key ho.1
    rcases hl : (pager.page s.currentPage.mem).pageType.isLeaf with _ | _
    · have hc := hs.child hl ((pager.page s.currentPage.mem).lowerBound key)
      rw [tableMoveToLoop_child hx hsearch (hf.2.2.trans hl) (hf.1 ▸ BtreePage.lowerBound_le _ _)
        hf.1 hc.1.valid, Pager.leafFor_succ_of_not_isLeaf hl]
      obtain ⟨s', hrun, hcur, hinit, -⟩ := tableMoveToLoop_spec key fuel
        (s := (s.setIdxCell _).push pager ((pager.page s.currentPage.mem).childPageId _)) hc.1
        ((ho.2 hl).1 _ (BtreePage.childPageId_mem _ _)) (by omega) (frameOk_new pager _)
      exact ⟨s', hrun, hcur, hinit, fun h' => absurd h' (by simp [hl])⟩
    · rw [tableMoveToLoop_leaf hx hsearch (hf.2.2.trans hl), Pager.leafFor_succ_of_isLeaf hl]
      exact ⟨_, rfl, hf.eq_new pager _, rfl, fun _ => rfl⟩

variable {H fuel : ℕ} {s : BtreeCursor}

/-- **`table_move_to`.** From any state with a correct root frame, on an ordered table
tree and with fuel for its height, `table_move_to(key)` ends on `leafFor key` at the lower
bound, returns the rowid of the cell there, keeps the root frame, and stays on the root if
that is a leaf. -/
theorem tableMoveTo_spec (key : ℤ) (hwf : pager.Subtree false H root)
    (ho : pager.TableOrdered H root)
    (hr : RootOk pager root s) (hfuel : H ≤ fuel) :
    ∃ s', tableMoveTo pager fuel key s =
        .ok ((pager.page (pager.leafFor key H root)).tableCellKey
          ((pager.page (pager.leafFor key H root)).lowerBound key)) s' ∧
      s'.currentPage = { CursorPage.new pager (pager.leafFor key H root) with
        idxCell := (pager.page (pager.leafFor key H root)).lowerBound key } ∧
      s'.initialized ∧ RootOk pager root s' ∧
      ((pager.page root).pageType.isLeaf → s'.parentPages = []) := by
  have hr' := (primitive_rootOk pager root).tableMoveTo fuel key s hr
  obtain ⟨hm, hf⟩ := hr
  subst hm
  obtain ⟨s', hrun, hcur, hinit, hpar⟩ := tableMoveToLoop_spec key fuel
    (s := { s with currentPage := s.bottom, parentPages := [] }) hwf ho hfuel hf
  have hroot : tableMoveTo pager fuel key s =
      tableMoveToLoop pager key fuel { s with currentPage := s.bottom, parentPages := [] } := by
    simp [tableMoveTo, moveToRoot]
  rw [hroot, hrun, stateOf_ok] at hr'
  exact ⟨s', hroot.trans hrun, hcur, hinit, hr', hpar⟩

/-- **Exact search.** On an ordered table tree, `table_move_to(key)` returns `Some(key)`
exactly when the table holds a row with rowid `key`. -/
theorem tableMoveTo_eq_some_iff (hwf : pager.Subtree false H root)
    (ho : pager.TableOrdered H root) (hr : RootOk pager root s) (hfuel : H ≤ fuel)
    {r : Option ℤ} {s' : BtreeCursor} (hrun : tableMoveTo pager fuel key s = .ok r s') :
    r = some key ↔ key ∈ (pager.cellsInOrder false H root).map Cell.key := by
  obtain ⟨s₁, hrun₁, -⟩ := tableMoveTo_spec key hwf ho hr hfuel
  obtain ⟨rfl, -⟩ := EStateM.Result.ok.inj (hrun₁.symm.trans hrun)
  obtain ⟨-, hsorted, hsub⟩ := Pager.leafFor_spec key hwf ho
  set p := pager.page (pager.leafFor key H root)
  constructor
  · intro hk
    simp only [BtreePage.tableCellKey, Option.map_eq_some'] at hk
    obtain ⟨c, hc, rfl⟩ := hk
    exact List.mem_map_of_mem _ (hsub c (List.getElem?_mem hc))
  · rw [List.mem_map]
    rintro ⟨c, hc, hck⟩
    obtain ⟨m, hm, hcm⟩ := List.getElem_of_mem (Pager.mem_leafFor hwf ho c hc hck)
    have hkm : (p.cells.get ⟨m, hm⟩).key = key := by simp [hcm, hck]
    have hlb : p.lowerBound key = m :=
      BtreePage.lowerBound_eq hsorted hm.le
        (fun i hi him => hkm ▸ key_lt_key_of_sorted hsorted him hm) fun i hi him => by
          rcases Nat.lt_or_eq_of_le him with h | rfl
          · exact hkm ▸ (key_lt_key_of_sorted hsorted h hi).le
          · exact hkm.ge
    simp [hlb, BtreePage.tableCellKey, List.getElem?_eq_getElem hm, hcm, hck]

/-- **`get_table_payload` after `table_move_to`** reads the cell at the lower bound of the
key in the leaf the descent reaches, or `None` past its last cell. -/
theorem tableMoveTo_getTablePayload_eq (key : ℤ) (hwf : pager.Subtree false H root)
    (ho : pager.TableOrdered H root) (hr : RootOk pager root s) (hfuel : H ≤ fuel) :
    ∃ a s', tableMoveTo pager fuel key s = .ok a s' ∧
      getTablePayload pager s' = .ok ((pager.page (pager.leafFor key H root)).leafTableCell
        ((pager.page (pager.leafFor key H root)).lowerBound key)) := by
  obtain ⟨s', hrun, hcur, hinit, -⟩ := tableMoveTo_spec key hwf ho hr hfuel
  obtain ⟨htype, -, -⟩ := Pager.leafFor_spec key hwf ho
  refine ⟨_, s', hrun, ?_⟩
  by_cases h : (pager.page (pager.leafFor key H root)).lowerBound key <
    (pager.page (pager.leafFor key H root)).nCells
  · simp [getTablePayload, hcur, hinit, CursorPage.new, htype, BtreePageType.isTable,
      BtreePageType.isLeaf, Nat.not_le.2 h, BtreePage.leafTableCell, List.getElem?_eq_getElem h]
  · simp [getTablePayload, hcur, hinit, CursorPage.new, htype, BtreePageType.isTable,
      Nat.not_lt.1 h, BtreePage.leafTableCell, List.getElem?_eq_none (Nat.not_lt.1 h)]

/-- The cell read there is a row of the table. -/
theorem leafTableCell_lowerBound_mem (hwf : pager.Subtree false H root)
    (ho : pager.TableOrdered H root) {x : ℤ × PayloadInfo}
    (hx : (pager.page (pager.leafFor key H root)).leafTableCell
      ((pager.page (pager.leafFor key H root)).lowerBound key) = some x) :
    ∃ c ∈ pager.cellsInOrder false H root, (c.key, c.payload) = x := by
  obtain ⟨-, -, hsub⟩ := Pager.leafFor_spec key hwf ho
  simp only [BtreePage.leafTableCell, Option.map_eq_some'] at hx
  obtain ⟨c, hc, rfl⟩ := hx
  exact ⟨c, hsub c (List.getElem?_mem hc), rfl⟩

/-- It is the row with rowid `key` when the table holds one. -/
theorem leafTableCell_lowerBound_of_mem (hwf : pager.Subtree false H root)
    (ho : pager.TableOrdered H root) {c : Cell} (hc : c ∈ pager.cellsInOrder false H root) :
    (pager.page (pager.leafFor c.key H root)).leafTableCell
      ((pager.page (pager.leafFor c.key H root)).lowerBound c.key) = some (c.key, c.payload) := by
  obtain ⟨-, hsorted, -⟩ := Pager.leafFor_spec c.key hwf ho
  obtain ⟨j, hj, hcj⟩ := List.getElem_of_mem (Pager.mem_leafFor hwf ho c hc rfl)
  rw [BtreePage.lowerBound_of_key_eq hsorted hj (show _ = c.key by simp [hcj])]
  simp [BtreePage.leafTableCell, List.getElem?_eq_getElem hj, hcj]

end TableMoveTo

/-! ### `move_to_last` -/

section MoveToLast

variable {pager : Pager} {root : PageId}

/-- **The descent of `move_to_last`.** From a frame of `pid`, following the right
children ends on a frame of a table leaf whose rows end the rows below `pid`, and which
is not empty unless `pid` is. -/
theorem descendRight_spec : ∀ (fuel : ℕ) {h : ℕ} {s : BtreeCursor},
    pager.Subtree false h s.currentPage.mem → h ≤ fuel → FrameOk pager s.currentPage →
    ∃ s' pre, descendRight pager fuel s = .ok () s' ∧ FrameOk pager s'.currentPage ∧
      (pager.page s'.currentPage.mem).pageType = .tableLeaf ∧
      pager.cellsInOrder false h s.currentPage.mem = pre ++ (pager.page s'.currentPage.mem).cells ∧
      ((pager.page s.currentPage.mem).cells ≠ [] → (pager.page s'.currentPage.mem).cells ≠ [])
  | 0, _, _, hs, hh, _ => absurd hs.pos (by omega)
  | fuel + 1, h, s, hs, hh, hf => by
    obtain ⟨h, rfl⟩ : ∃ h', h = h' + 1 := ⟨h - 1, by have := hs.pos; omega⟩
    rcases hl : (pager.page s.currentPage.mem).pageType.isLeaf with _ | _
    · have hc := hs.child hl (pager.page s.currentPage.mem).nCells
      rw [BtreePage.childPageId_of_le le_rfl] at hc
      obtain ⟨s', pre, hrun, hf', ht, hcells, hne⟩ := descendRight_spec fuel
        (s := s.push pager (pager.page s.currentPage.mem).rightPageId) hc.1 (by omega)
        (frameOk_new pager _)
      have hcells : pager.cellsInOrder false h (pager.page s.currentPage.mem).rightPageId =
          pre ++ (pager.page s'.currentPage.mem).cells := hcells
      refine ⟨s', ((pager.page s.currentPage.mem).cells.take
          (pager.page s.currentPage.mem).nCells).flatMap (pager.segment false h) ++ pre,
        (descendRight_succ_of_child (hf.2.2.trans hl) hc.1.valid).trans hrun, hf', ht, ?_,
        fun _ => hne hc.2⟩
      rw [Pager.cellsInOrder_succ_of_not_isLeaf hl, Pager.contentsFrom_zero _ (pager.page _).nCells,
        Pager.contentsFrom_nCells, hcells, List.append_assoc]
    · refine ⟨s, [], descendRight_succ_of_isLeaf (hf.2.2.trans hl), hf, ?_,
        Pager.cellsInOrder_succ_of_isLeaf hl, id⟩
      rcases hs.pageType with ht | ht <;>
        simp_all [BtreePageType.leaf, BtreePageType.interior, BtreePageType.isLeaf]

variable {H fuel : ℕ} {s : BtreeCursor}

/-- **`move_to_last`.** From any state with a correct root frame, on a table tree whose
root is a leaf or holds a cell, `move_to_last` keeps the root frame, and `get_table_key`
then returns the last rowid of the table, or `None` when it is empty. -/
theorem moveToLast_spec (hwf : pager.Subtree false H root)
    (hne : (pager.page root).pageType.isLeaf ∨ (pager.page root).cells ≠ [])
    (hr : RootOk pager root s) (hfuel : H ≤ fuel) :
    ∃ s', moveToLast pager fuel s = .ok () s' ∧ RootOk pager root s' ∧
      getTableKey pager s' = .ok (((pager.cellsInOrder false H root).map Cell.key).getLast?) := by
  have hr' := (primitive_rootOk pager root).moveToLast fuel s hr
  obtain ⟨hm, hf⟩ := hr
  subst hm
  by_cases h0 : s.bottom.nCells = 0
  · rw [moveToLast_of_empty h0] at hr' ⊢
    have hcells : (pager.page s.bottom.mem).cells = [] :=
      List.eq_nil_of_length_eq_zero (hf.1.symm.trans h0)
    have hl : (pager.page s.bottom.mem).pageType.isLeaf := hne.resolve_right (not_not.2 hcells)
    refine ⟨_, rfl, hr', ?_⟩
    rw [Pager.cellsInOrder_of_isLeaf hl hwf.pos, hcells]
    have ht : s.bottom.pageType.isTable := by
      rw [hf.2.1]; rcases hwf.pageType with ht | ht <;> simp [ht]
    simp [getTableKey, ht, h0]
  · obtain ⟨s', pre, hrun, hf', ht, hcells, hne'⟩ := descendRight_spec fuel
      (s := { s with currentPage := s.bottom, parentPages := [] }) hwf hfuel hf
    have hne'' : (pager.page s'.currentPage.mem).cells ≠ [] :=
      hne' fun h => h0 (hf.1.trans (by rw [BtreePage.nCells, h]; rfl))
    have hpos : 0 < s'.currentPage.nCells := by
      rw [hf'.1, BtreePage.nCells]; exact List.length_pos.2 hne''
    rw [moveToLast_of_descendRight h0 hrun hpos.ne'] at hr' ⊢
    refine ⟨_, rfl, hr', ?_⟩
    have hlast : (pager.page s'.currentPage.mem).cells.length - 1 <
        (pager.page s'.currentPage.mem).cells.length := by
      rw [← BtreePage.nCells, ← hf'.1]; omega
    rw [hcells, List.map_append, List.getLast?_append_of_ne_nil _ (by simpa using hne''),
      List.getLast?_eq_getElem?]
    simp [getTableKey, hf'.1, hf'.2.1, hf'.2.2, ht, BtreePage.tableCellKey, BtreePage.nCells,
      BtreePageType.isTable, BtreePageType.isLeaf, hpos, List.getElem?_eq_getElem hlast, hlast]

end MoveToLast

/-- On both two-level trees `move_to_last` reads the last entry, but the `move_next` after it
does not complete: the root frame keeps `idx_cell = 0` under the right leaf. On the table,
positioned first by `move_to_first`, the cursor steps into the right child and reads row
`11` again; on the index, from a fresh cursor, it climbs to the root's entry `(20, 2)`. -/
theorem moveNext_after_moveToLast_not_completed :
    (∃ s₁ s₂ s₃,
      moveToFirst twoLevelTable 2 ⟨CursorPage.new twoLevelTable 2, [], false⟩ = .ok () s₁ ∧
      moveToLast twoLevelTable 2 s₁ = .ok () s₂ ∧ getTableKey twoLevelTable s₂ = .ok (some 12) ∧
      moveNext twoLevelTable 2 s₂ = .ok () s₃ ∧ getTableKey twoLevelTable s₃ = .ok (some 11)) ∧
    ∃ s₂ s₃, moveToLast twoLevelIndex 2 ⟨CursorPage.new twoLevelIndex 2, [], false⟩ = .ok () s₂ ∧
      getIndexPayload twoLevelIndex s₂ = .ok (some ⟨5, [3, 1, 1, 30, 3], none⟩) ∧
      moveNext twoLevelIndex 2 s₂ = .ok () s₃ ∧
      getIndexPayload twoLevelIndex s₃ = .ok (some ⟨5, [3, 1, 1, 20, 2], none⟩) :=
  ⟨⟨_, _, _, rfl, rfl, rfl, rfl, rfl⟩, _, _, rfl, rfl, rfl, rfl⟩

end Prsqlite
