import Prsqlite.Termination

/-!
# The Cursor Stays in Its Tree

A database file holds many trees, and a cursor is opened on the root page of one. It
moves only along the child pointers of the pages it is on: `move_to_child` is called with
the left child of a cell or the right child of the current page, and only when the cached
header says that page is interior. So every frame on the cursor's stack caches its page's
header and sits on a page reached from the root along child pointers, whatever the pages
hold: `Confined`. This holds after every operation, whether it returned or failed, also
where the path invariant is lost (`moveToLast_breaks_pathOk`).

On a well-formed tree every such page roots a subtree of it, so every read of the cursor
returns a row, a key or an entry of the tree the cursor was opened on.

## Main results

* `Pager.InTree.subtree`: a page reached from the root of a well-formed tree roots a
  well-formed subtree, whose contents the tree holds.
* `confined_run`: every positioning operation keeps `Confined`, returned or failed.
* `reads_stay_in_tree`: from every reachable state, `get_table_key`, `get_table_payload`
  and `get_index_payload` return only what the tree under the root holds.
-/

namespace Prsqlite

/-! ### The pages of a tree -/

namespace Pager

variable {pager : Pager} {index : Bool}

/-- What a child of an interior page holds, the page holds. -/
theorem mem_cellsInOrder_of_child {h : ℕ} {p c : PageId}
    (hl : (pager.page p).pageType.isLeaf = false) (hc : c ∈ (pager.page p).childPageIds)
    {x : Cell} (hx : x ∈ pager.cellsInOrder index h c) :
    x ∈ pager.cellsInOrder index (h + 1) p := by
  rw [cellsInOrder_succ_of_not_isLeaf hl, contentsFrom, List.drop_zero]
  rcases List.mem_append.1 hc with hc | hc
  · obtain ⟨cell, hcell, rfl⟩ := List.mem_map.1 hc
    exact List.mem_append_left _ (List.mem_flatMap.2 ⟨cell, hcell, List.mem_append_left _ hx⟩)
  · obtain rfl := List.mem_singleton.1 hc
    exact List.mem_append_right _ hx

/-- A page reached from the root of a well-formed tree roots a well-formed subtree, whose
contents the tree holds. -/
theorem InTree.subtree {H : ℕ} {root c : PageId} (hwf : pager.Subtree index H root)
    (hc : pager.InTree root c) : ∃ h, pager.Subtree index h c ∧
      ∀ x ∈ pager.cellsInOrder index h c, x ∈ pager.cellsInOrder index H root := by
  induction hc with
  | root => exact ⟨H, hwf, fun _ => id⟩
  | child _ hl hc ih =>
    obtain ⟨h, hs, hsub⟩ := ih
    obtain ⟨h, rfl⟩ : ∃ h', h = h' + 1 := ⟨h - 1, by have := hs.pos; omega⟩
    have hint := hs.2.resolve_left fun ht => by simp [ht] at hl
    exact ⟨h, (hint.2 _ hc).1, fun x hx => hsub x (mem_cellsInOrder_of_child hl hc hx)⟩

/-- Every cell of a page reached from the root of a well-formed tree is in the tree: an
entry of an index, and a row of a table when the page is a leaf. -/
theorem InTree.mem_cellsInOrder {H : ℕ} {root c : PageId} (hwf : pager.Subtree index H root)
    (hc : pager.InTree root c) (hl : index ∨ (pager.page c).pageType.isLeaf) {x : Cell}
    (hx : x ∈ (pager.page c).cells) : x ∈ pager.cellsInOrder index H root := by
  obtain ⟨h, hs, hsub⟩ := hc.subtree hwf
  refine hsub x ?_
  rcases hl with rfl | hl
  · exact (cells_sublist_cellsInOrder hs.pos).subset hx
  · rwa [cellsInOrder_of_isLeaf hl hs.pos]

end Pager

/-! ### The invariant -/

section Confined

variable (pager : Pager) (root : PageId)

/-- Every frame of the stack caches its page's header and sits on a page of the tree
under `root`. -/
def Confined (s : BtreeCursor) : Prop :=
  ∀ f ∈ s.currentPage :: s.parentPages, FrameOk pager f ∧ pager.InTree root f.mem

variable {pager root} {s : BtreeCursor}

/-- The current frame caches its page's header and lies in the tree. -/
theorem Confined.current (hs : Confined pager root s) :
    FrameOk pager s.currentPage ∧ pager.InTree root s.currentPage.mem :=
  hs _ (List.mem_cons_self _ _)

/-- Moving the current frame to another cell keeps the invariant. -/
theorem Confined.setIdxCell (hs : Confined pager root s) (i : ℕ) :
    Confined pager root (s.setIdxCell i) := by
  intro f hf
  rcases List.mem_cons.1 hf with rfl | hf
  exacts [hs.current, hs f (List.mem_cons_of_mem _ hf)]

/-- Stepping the current frame to its next cell keeps the invariant. -/
theorem Confined.incIdxCell (hs : Confined pager root s) : Confined pager root s.incIdxCell :=
  hs.setIdxCell _

/-- Marking the cursor initialized keeps the invariant. -/
theorem Confined.setInitialized (hs : Confined pager root s) :
    Confined pager root s.setInitialized := hs

/-- Popping a frame keeps the invariant. -/
theorem Confined.pop {g : CursorPage} {gs : List CursorPage} (hs : Confined pager root s)
    (h : s.parentPages = g :: gs) :
    Confined pager root { s with currentPage := g, parentPages := gs } :=
  fun f hf => hs f (List.mem_cons_of_mem _ (h ▸ hf))

/-- Pushing a child of the current interior page keeps the invariant. -/
theorem Confined.push {c : PageId} (hs : Confined pager root s)
    (hl : s.currentPage.isLeaf = false) (hc : c ∈ (pager.page s.currentPage.mem).childPageIds) :
    Confined pager root (s.push pager c) := by
  intro f hf
  rcases List.mem_cons.1 hf with rfl | hf
  · exact ⟨frameOk_new pager c, .child hs.current.2 (hs.current.1.2.2.symm.trans hl) hc⟩
  · exact hs f hf

/-- `move_to_child` into a child of the current interior page keeps the invariant: it
pushes a fresh frame of the child, or fails on an invalid page and changes nothing. -/
theorem Confined.moveToChild {c : PageId} (hs : Confined pager root s)
    (hl : s.currentPage.isLeaf = false) (hc : c ∈ (pager.page s.currentPage.mem).childPageIds) :
    Confined pager root (stateOf (moveToChild pager c s)) := by
  by_cases hv : pager.Valid c
  · rw [moveToChild_of_valid pager hv]
    exact hs.push hl hc
  · rw [moveToChild_of_not_valid hv]
    exact hs

/-- `move_to_root` keeps the invariant: the bottom frame it keeps is one of the stack's. -/
theorem confined_moveToRoot : Keeps (Confined pager root) moveToRoot := fun s hs f hf => by
  rcases List.mem_singleton.1 hf with rfl
  show FrameOk pager s.bottom ∧ pager.InTree root s.bottom.mem
  unfold BtreeCursor.bottom
  rcases h : s.parentPages.getLast? with _ | g
  · exact hs.current
  · exact hs g (List.mem_cons_of_mem _ (List.mem_of_getLast?_eq_some h))

/-- `back_to_parent` keeps the invariant: it pops a frame, or fails on the root. -/
theorem confined_backToParent : Keeps (Confined pager root) backToParent := fun s hs => by
  rcases h : s.parentPages with _ | ⟨g, gs⟩
  · rwa [backToParent_nil h]
  · rw [backToParent_cons h]
    exact hs.pop h

end Confined

/-! ### Every operation keeps it -/

/-- A loop keeps `P` when each turn ends in a state with `P`, or goes on from one. -/
theorem Keeps.loop {α : Type} {P : BtreeCursor → Prop} {loop : ℕ → CursorM α}
    (h0 : Keeps P (loop 0))
    (hturn : ∀ fuel s, P s →
      P (stateOf (loop (fuel + 1) s)) ∨ ∃ t, P t ∧ loop (fuel + 1) s = loop fuel t) :
    ∀ fuel, Keeps P (loop fuel)
  | 0 => h0
  | fuel + 1 => fun s hs => (hturn fuel s hs).elim id fun ⟨t, ht, heq⟩ => by
    rw [heq]
    exact Keeps.loop h0 hturn fuel t ht

/-- A bind keeps `P` from a state its first action keeps it in. -/
theorem Keeps.bind_at {α β : Type} {P : BtreeCursor → Prop} {x : CursorM α} {f : α → CursorM β}
    {s : BtreeCursor} (hx : P (stateOf (x s))) (hf : ∀ a, Keeps P (f a)) :
    P (stateOf ((x >>= f) s)) := by
  rw [EStateM.bind_apply]
  rcases h : x s with ⟨a, s'⟩ | ⟨e, s'⟩
  · rw [h] at hx
    exact hf a s' hx
  · rwa [h] at hx

section Operations

variable {pager : Pager} {root : PageId} {s : BtreeCursor} {α : Type}

/-- A turn that, on an interior page, moves into the child `i_min` selects and goes on,
as both seeks do. -/
theorem confined_childStep {loop : ℕ → CursorM α} {fuel iMin : ℕ}
    (hs : Confined pager root s) (hl : s.currentPage.isLeaf = false)
    (h : loop (fuel + 1) s =
      (if iMin = s.currentPage.nCells then do
          moveToChild pager (pager.page s.currentPage.mem).rightPageId
          loop fuel
        else do
          let y ← decode "get btree interior cell page id"
            ((pager.page s.currentPage.mem).interiorCellPageId iMin)
          moveToChild pager y
          loop fuel) (s.setIdxCell iMin)) :
    Confined pager root (stateOf (loop (fuel + 1) s)) ∨
      ∃ t, Confined pager root t ∧ loop (fuel + 1) s = loop fuel t := by
  have hs' := hs.setIdxCell iMin
  rw [h]
  split_ifs
  · by_cases hv : pager.Valid (pager.page s.currentPage.mem).rightPageId
    · exact .inr ⟨_, hs'.push hl (BtreePage.rightPageId_mem_childPageIds _),
        by simp [moveToChild_of_valid pager hv]⟩
    · exact .inl (by simpa [moveToChild_of_not_valid hv] using hs')
  · rcases hc : (pager.page s.currentPage.mem).interiorCellPageId iMin with _ | c
    · exact .inl (by simpa [hc, decode] using hs')
    · by_cases hv : pager.Valid c
      · exact .inr ⟨_, hs'.push hl (BtreePage.mem_childPageIds_of_interiorCellPageId hc),
          by simp [hc, moveToChild_of_valid pager hv]⟩
      · exact .inl (by simpa [hc, moveToChild_of_not_valid hv] using hs')

/-- The descent of `move_to_left_most` keeps the cursor in its tree: each turn moves into the
left child of the first cell of an interior page. -/
theorem confined_descendLeftMost :
    ∀ fuel, Keeps (Confined pager root) (descendLeftMost pager fuel) :=
  Keeps.loop (Keeps.throw _) fun fuel s hs => by
    rcases hl : s.currentPage.isLeaf
    · rcases hc : (pager.page s.currentPage.mem).interiorCellPageId 0 with _ | c
      · exact .inl (by simpa [descendLeftMost, hl, hc, decode] using hs)
      · by_cases hv : pager.Valid c
        · exact .inr ⟨_, hs.push hl (BtreePage.mem_childPageIds_of_interiorCellPageId hc),
            descendLeftMost_succ_of_child hl hc hv⟩
        · exact .inl (by simpa [descendLeftMost, hl, hc, moveToChild_of_not_valid hv] using hs)
    · exact .inl (by rwa [descendLeftMost_succ_of_isLeaf hl])

/-- `move_to_left_most` keeps the cursor in its tree: its first step moves into the child
the current frame's `idx_cell` selects. -/
theorem confined_moveToLeftMost (fuel : ℕ) :
    Keeps (Confined pager root) (moveToLeftMost pager fuel) := by
  intro s hs
  have hrest : ∀ c, c ∈ (pager.page s.currentPage.mem).childPageIds →
      s.currentPage.isLeaf = false → Confined pager root (stateOf ((do
        moveToChild pager c
        modify (·.setIdxCell 0)
        descendLeftMost pager fuel
        return true : CursorM Bool) s)) := fun c hc hl =>
    Keeps.bind_at (hs.moveToChild hl hc) fun _ =>
      Keeps.bind (Keeps.modify fun _ ht => ht.setIdxCell 0) fun _ =>
        Keeps.bind (confined_descendLeftMost fuel) fun _ => Keeps.pure _
  rcases hl : s.currentPage.isLeaf
  · rcases hcmp : compare s.currentPage.idxCell s.currentPage.nCells
    · rcases hc : (pager.page s.currentPage.mem).interiorCellPageId s.currentPage.idxCell
        with _ | c
      · simpa [moveToLeftMost, hl, hcmp, hc, decode] using hs
      · simpa [moveToLeftMost, hl, hcmp, hc] using
          hrest c (BtreePage.mem_childPageIds_of_interiorCellPageId hc) hl
    · simpa [moveToLeftMost, hl, hcmp] using
        hrest _ (BtreePage.rightPageId_mem_childPageIds _) hl
    · simpa [moveToLeftMost, hl, hcmp] using hs
  · simpa [moveToLeftMost, hl] using hs

/-- `move_to_first` keeps the cursor in its tree. -/
theorem confined_moveToFirst (fuel : ℕ) : Keeps (Confined pager root) (moveToFirst pager fuel) := by
  unfold moveToFirst
  repeat'
    with_reducible first
      | exact confined_moveToRoot | exact (confined_moveToLeftMost fuel).discard
      | exact Keeps.modify fun _ h => h.setIdxCell _
      | exact Keeps.modify fun _ => Confined.setInitialized
      | refine Keeps.bind ?_ (fun _ => ?_) | exact Keeps.pure _ | exact Keeps.get
      | refine Keeps.ite ?_ ?_

/-- The descent of `move_to_last` keeps the cursor in its tree: each turn moves into the
right child of an interior page. -/
theorem confined_descendRight : ∀ fuel, Keeps (Confined pager root) (descendRight pager fuel) :=
  Keeps.loop (Keeps.throw _) fun fuel s hs => by
    rcases hl : s.currentPage.isLeaf
    · by_cases hv : pager.Valid (pager.page s.currentPage.mem).rightPageId
      · exact .inr ⟨_, hs.push hl (BtreePage.rightPageId_mem_childPageIds _),
          descendRight_succ_of_child hl hv⟩
      · exact .inl (by simpa [descendRight, hl, moveToChild_of_not_valid hv] using hs)
    · exact .inl (by rwa [descendRight_succ_of_isLeaf hl])

/-- `move_to_last` keeps the cursor in its tree, although it breaks the path invariant. -/
theorem confined_moveToLast (fuel : ℕ) : Keeps (Confined pager root) (moveToLast pager fuel) := by
  unfold moveToLast
  repeat'
    with_reducible first
      | exact confined_moveToRoot | exact confined_descendRight fuel
      | exact Keeps.modify fun _ h => h.setIdxCell _
      | exact Keeps.modify fun _ => Confined.setInitialized
      | refine Keeps.bind ?_ (fun _ => ?_) | exact Keeps.pure _ | exact Keeps.get
      | exact Keeps.throw _ | refine Keeps.ite ?_ ?_

/-- The loop of `table_move_to` keeps the cursor in its tree: each turn moves into the child
its binary search selects. -/
theorem confined_tableMoveToLoop (key : ℤ) :
    ∀ fuel, Keeps (Confined pager root) (tableMoveToLoop pager key fuel) :=
  Keeps.loop (Keeps.throw _) fun fuel s hs => by
    by_cases hx : s.currentPage.pageType.isTable
    · rcases hsr : tableSearch (pager.page s.currentPage.mem) key s.currentPage.nCells 0
        s.currentPage.nCells none with e | ⟨iMin, maxCellKey⟩
      · exact .inl (by simpa [tableMoveToLoop, hx, hsr, liftExcept] using hs)
      rcases hl : s.currentPage.isLeaf
      · exact confined_childStep hs hl (tableMoveToLoop_interior hx hsr hl)
      · exact .inl (by rw [tableMoveToLoop_leaf hx hsr hl]; exact hs.setIdxCell iMin)
    · exact .inl (by simpa [tableMoveToLoop, hx] using hs)

/-- The climb of `index_move_to` and `move_next` keeps the cursor in its tree: it only pops. -/
theorem confined_indexClimb : ∀ fuel, Keeps (Confined pager root) (indexClimb fuel) :=
  Keeps.loop (Keeps.throw _) fun fuel s hs => by
    rcases h : s.parentPages with _ | ⟨g, gs⟩
    · exact .inl (by rw [indexClimb_succ_nil h]; exact hs.incIdxCell)
    · by_cases hg : g.idxCell = g.nCells
      · exact .inr ⟨_, hs.pop h, indexClimb_succ_right h hg⟩
      · exact .inl (by rw [indexClimb_succ_stop h hg]; exact hs.pop h)

/-- The loop of `index_move_to` keeps the cursor in its tree: each turn moves into the child
its binary search selects, or climbs. -/
theorem confined_indexMoveToLoop (cmp : PayloadInfo → Except Error Ordering) :
    ∀ fuel, Keeps (Confined pager root) (indexMoveToLoop pager cmp fuel) :=
  Keeps.loop (Keeps.throw _) fun fuel s hs => by
    by_cases hx : s.currentPage.pageType.isIndex
    · rcases hsr : indexSearch (pager.page s.currentPage.mem) cmp s.currentPage.nCells 0
        s.currentPage.nCells with e | ⟨i⟩ | ⟨m⟩
      · exact .inl (by simpa [indexMoveToLoop, hx, hsr, liftExcept] using hs)
      · exact .inl (by rw [indexMoveToLoop_found hx hsr]; exact hs.setIdxCell i)
      rcases hl : s.currentPage.isLeaf
      · exact confined_childStep hs hl (indexMoveToLoop_interior hx hsr hl)
      by_cases hm : m = s.currentPage.nCells
      · subst hm
        have hrun : indexMoveToLoop pager cmp (fuel + 1) s =
            (indexClimb fuel >>= fun _ => modify BtreeCursor.setInitialized)
              (s.setIdxCell s.currentPage.nCells) := by
          simp [indexMoveToLoop, hx, hsr, hl]
        rw [hrun]
        exact .inl (Keeps.bind_at (confined_indexClimb fuel _ (hs.setIdxCell _)) fun _ =>
          Keeps.modify fun _ => Confined.setInitialized)
      · exact .inl (by rw [indexMoveToLoop_leaf hx hsr hl hm]; exact hs.setIdxCell m)
    · exact .inl (by simpa [indexMoveToLoop, hx] using hs)

/-- `table_move_to` keeps the cursor in its tree. -/
theorem confined_tableMoveTo (fuel : ℕ) (key : ℤ) :
    Keeps (Confined pager root) (tableMoveTo pager fuel key) :=
  Keeps.bind confined_moveToRoot fun _ => confined_tableMoveToLoop key fuel

/-- `index_move_to` keeps the cursor in its tree. -/
theorem confined_indexMoveTo (fuel : ℕ) (cmp : PayloadInfo → Except Error Ordering) :
    Keeps (Confined pager root) (indexMoveTo pager fuel cmp) :=
  Keeps.bind confined_moveToRoot fun _ => confined_indexMoveToLoop cmp fuel

/-- The climb of `move_next` on a table keeps the cursor in its tree: it pops, steps to the
next child and descends to the left-most leaf below it. -/
theorem confined_tableClimb (fuel : ℕ) :
    ∀ n, Keeps (Confined pager root) (tableClimb pager fuel n) :=
  Keeps.loop (Keeps.throw _) fun n s hs => by
    rcases h : s.parentPages with _ | ⟨g, gs⟩
    · exact .inl (by rw [tableClimb_succ_nil h]; exact hs.incIdxCell)
    have hl := confined_moveToLeftMost fuel _ (hs.pop h).incIdxCell
    rcases hm : moveToLeftMost pager fuel
      ({ s with currentPage := g, parentPages := gs } : BtreeCursor).incIdxCell
      with ⟨_ | _, s'⟩ | ⟨e, s'⟩ <;> rw [hm] at hl
    · exact .inr ⟨s', hl, tableClimb_succ_next h hm⟩
    · exact .inl (by rwa [tableClimb_succ_found h hm])
    · simp only [BtreeCursor.incIdxCell_eq] at hm
      exact .inl (by simpa [tableClimb, backToParent_cons h, hm] using hl)

/-- `move_next` keeps the cursor in its tree. -/
theorem confined_moveNext (fuel : ℕ) : Keeps (Confined pager root) (moveNext pager fuel) := by
  unfold moveNext
  repeat'
    with_reducible first
      | exact confined_tableClimb fuel fuel | exact confined_indexClimb fuel
      | exact confined_moveToLeftMost fuel | exact Keeps.modify fun _ h => h.incIdxCell
      | refine Keeps.bind ?_ (fun _ => ?_) | exact Keeps.pure _ | exact Keeps.get
      | exact Keeps.throw _ | exact Keeps.assert _ _ | refine Keeps.ite ?_ ?_

/-- **The run lemma.** Every operation keeps the cursor in its tree, whether it returns
or fails. -/
theorem confined_run (op : CursorOp) : Keeps (Confined pager root) (op.run pager) := by
  cases op with
  | moveToFirst fuel => exact confined_moveToFirst fuel
  | moveToLast fuel => exact confined_moveToLast fuel
  | tableMoveTo fuel key => exact (confined_tableMoveTo fuel key).discard
  | indexMoveTo fuel cmp => exact confined_indexMoveTo fuel cmp
  | moveNext fuel => exact confined_moveNext fuel

/-- Every reachable state keeps the cursor in the tree under its root, by induction on the
operations that reach it. -/
theorem Reachable.confined (h : Reachable pager root s) : Confined pager root s := by
  induction h with
  | new hnew =>
    unfold BtreeCursor.new at hnew
    split at hnew
    · cases hnew
      intro f hf
      rcases List.mem_singleton.1 hf with rfl
      exact ⟨frameOk_new pager root, .root⟩
    · cases hnew
  | step op _ ih => exact confined_run op _ ih

end Operations

/-! ### Reads -/

section Reads

variable {pager : Pager} {root : PageId} {s : BtreeCursor} {H : ℕ}

/-- `get_table_key` reads a key of the table. -/
theorem Confined.getTableKey_mem (hs : Confined pager root s)
    (hwf : pager.Subtree false H root) {k : ℤ} (hk : getTableKey pager s = .ok (some k)) :
    ∃ c ∈ pager.cellsInOrder false H root, c.key = k := by
  obtain ⟨hf, hin⟩ := hs.current
  unfold getTableKey at hk
  split_ifs at hk with h₁ h₂ h₃ h₄
  · cases hk
  split at hk
  · obtain ⟨c, hc, rfl⟩ := Option.map_eq_some'.1 ‹_›
    cases hk
    exact ⟨c, hin.mem_cellsInOrder hwf (.inr (hf.2.2 ▸ by simpa using h₄)) (List.getElem?_mem hc),
      rfl⟩
  · cases hk

/-- `get_table_payload` reads a row of the table. -/
theorem Confined.getTablePayload_mem (hs : Confined pager root s)
    (hwf : pager.Subtree false H root) {x : ℤ × PayloadInfo}
    (hx : getTablePayload pager s = .ok (some x)) :
    ∃ c ∈ pager.cellsInOrder false H root, (c.key, c.payload) = x := by
  obtain ⟨hf, hin⟩ := hs.current
  unfold getTablePayload at hx
  split_ifs at hx with h₁ h₂ h₃ h₄
  · cases hx
  split at hx
  · obtain ⟨c, hc, rfl⟩ := Option.map_eq_some'.1 ‹_›
    cases hx
    exact ⟨c, hin.mem_cellsInOrder hwf (.inr (hf.2.2 ▸ by simpa using h₄)) (List.getElem?_mem hc),
      rfl⟩
  · cases hx

/-- `get_index_payload` reads an entry of the index. -/
theorem Confined.getIndexPayload_mem (hs : Confined pager root s)
    (hwf : pager.Subtree true H root) {p : PayloadInfo}
    (hp : getIndexPayload pager s = .ok (some p)) :
    ∃ c ∈ pager.cellsInOrder true H root, c.payload = p := by
  obtain ⟨-, hin⟩ := hs.current
  unfold getIndexPayload at hp
  split_ifs at hp with h₁ h₂ h₃
  · cases hp
  split at hp
  · obtain ⟨c, hc, rfl⟩ := Option.map_eq_some'.1 ‹_›
    cases hp
    exact ⟨c, hin.mem_cellsInOrder hwf (.inl rfl) (List.getElem?_mem hc), rfl⟩
  · cases hp

/-- **Reads stay in the tree.** From every state a cursor on `root` reaches by any
sequence of operations, each of which may have returned or failed, every frame caches its
page's header and sits on a page of the tree under `root`. On a well-formed table tree,
`get_table_key` and `get_table_payload` then return only keys and rows of that table, and
on a well-formed index tree `get_index_payload` returns only its entries. -/
theorem reads_stay_in_tree (h : Reachable pager root s) :
    Confined pager root s ∧
    (pager.Subtree false H root →
      (∀ k, getTableKey pager s = .ok (some k) →
        ∃ c ∈ pager.cellsInOrder false H root, c.key = k) ∧
      ∀ x, getTablePayload pager s = .ok (some x) →
        ∃ c ∈ pager.cellsInOrder false H root, (c.key, c.payload) = x) ∧
    (pager.Subtree true H root →
      ∀ p, getIndexPayload pager s = .ok (some p) →
        ∃ c ∈ pager.cellsInOrder true H root, c.payload = p) :=
  have hs := h.confined
  ⟨hs, fun hwf => ⟨fun _ => hs.getTableKey_mem hwf, fun _ => hs.getTablePayload_mem hwf⟩,
    fun hwf _ => hs.getIndexPayload_mem hwf⟩

/-- After `move_to_last` and `move_next` on `twoLevelTable`, where the path is broken, the
cursor still reads the table. -/
theorem twoLevelTable_reads_stay_in_tree :
    ∃ s, Reachable twoLevelTable 2 s ∧
      (Confined twoLevelTable 2 s ∧
      (twoLevelTable.Subtree false 2 2 →
        (∀ k, getTableKey twoLevelTable s = .ok (some k) →
          ∃ c ∈ twoLevelTable.cellsInOrder false 2 2, c.key = k) ∧
        ∀ x, getTablePayload twoLevelTable s = .ok (some x) →
          ∃ c ∈ twoLevelTable.cellsInOrder false 2 2, (c.key, c.payload) = x) ∧
      (twoLevelTable.Subtree true 2 2 →
        ∀ p, getIndexPayload twoLevelTable s = .ok (some p) →
          ∃ c ∈ twoLevelTable.cellsInOrder true 2 2, c.payload = p)) :=
  have h : Reachable twoLevelTable 2 _ := .step (.moveNext 2) (.step (.moveToLast 2) (.new rfl))
  ⟨_, h, reads_stay_in_tree h⟩

end Reads

end Prsqlite
