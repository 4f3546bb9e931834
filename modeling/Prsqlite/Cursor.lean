import Prsqlite.Page

/-!
# The B-tree Cursor

This module is the shallow embedding of `BtreeCursor` of `cursor.rs`. A Rust method
taking `&mut self` becomes an action of `CursorM = EStateM Error BtreeCursor`: like the
`?` operator, an error returns early and keeps every mutation made before it. The
pager is a parameter, fixed for all operations but `insert`.

Every `loop` of the source that follows child pointers takes a `fuel` argument and
throws `Error.outOfFuel` when it runs out; the main theorems show that a fuel above the
height of a well-formed tree is never exhausted. The two binary searches are bounded
by the cell count, which is passed as their bound: at bound `0` they exit as the
`while i_min < i_max` loop does.

The stack `parent_pages` is a `Vec` whose top is its last element; here it is a list
whose head is the top, so that `push` is `cons` and `pop` is the match on it.

`assert!`, `todo!` and `unwrap` on `None` are `Error.panic` with the message Rust
prints, and `bail!` is `Error.bail` with its text.
-/

namespace Prsqlite

/-- The errors of the cursor: a pager failure, an `anyhow` error, one wrapped in a context
by `.context(msg)`, a panic, and the exhausted fuel of the model. -/
inductive Error
  | pager (pid : PageId)
  | bail (msg : String)
  | context (msg : String) (e : Error)
  | panic (msg : String)
  | outOfFuel
  deriving DecidableEq, Repr

/-- `CursorPage`: a page of the cursor's path, with the header fields cached when the
frame was created. `mem` is the page handle, here its id. -/
structure CursorPage where
  mem : PageId
  idxCell : ℕ
  nCells : ℕ
  pageType : BtreePageType
  isLeaf : Bool
  deriving DecidableEq, Repr

/-- `CursorPage::new`: a frame on page `pid` at cell `0`. -/
def CursorPage.new (pager : Pager) (pid : PageId) : CursorPage where
  mem := pid
  idxCell := 0
  nCells := (pager.page pid).nCells
  pageType := (pager.page pid).pageType
  isLeaf := (pager.page pid).pageType.isLeaf

/-- `BtreeCursor`: the current frame, the frames above it (innermost first), and
whether a positioning operation has run. -/
structure BtreeCursor where
  currentPage : CursorPage
  parentPages : List CursorPage
  initialized : Bool
  deriving DecidableEq, Repr

namespace BtreeCursor

/-- `idx_cell = i` on the current frame. -/
def setIdxCell (s : BtreeCursor) (i : ℕ) : BtreeCursor :=
  { s with currentPage := { s.currentPage with idxCell := i } }

/-- `idx_cell += 1` on the current frame. -/
def incIdxCell (s : BtreeCursor) : BtreeCursor := s.setIdxCell (s.currentPage.idxCell + 1)

/-- `initialized = true`. -/
def setInitialized (s : BtreeCursor) : BtreeCursor := { s with initialized := true }

/-- `BtreeCursor::new`: a cursor on the root page, not yet positioned. -/
def new (pager : Pager) (rootPageId : PageId) : Except Error BtreeCursor :=
  if pager.Valid rootPageId then
    .ok ⟨CursorPage.new pager rootPageId, [], false⟩
  else .error (.pager rootPageId)

@[simp] theorem setIdxCell_currentPage (s : BtreeCursor) (i : ℕ) :
    (s.setIdxCell i).currentPage = { s.currentPage with idxCell := i } := rfl

@[simp] theorem setIdxCell_parentPages (s : BtreeCursor) (i : ℕ) :
    (s.setIdxCell i).parentPages = s.parentPages := rfl

@[simp] theorem setIdxCell_initialized (s : BtreeCursor) (i : ℕ) :
    (s.setIdxCell i).initialized = s.initialized := rfl

@[simp] theorem incIdxCell_eq (s : BtreeCursor) :
    s.incIdxCell = s.setIdxCell (s.currentPage.idxCell + 1) := rfl

/-- Marking an initialized cursor initialized changes nothing. -/
theorem setInitialized_of_initialized {s : BtreeCursor} (h : s.initialized) :
    s.setInitialized = s := by
  cases s
  simp_all [setInitialized]

@[simp] theorem setInitialized_currentPage (s : BtreeCursor) :
    s.setInitialized.currentPage = s.currentPage := rfl

@[simp] theorem setInitialized_parentPages (s : BtreeCursor) :
    s.setInitialized.parentPages = s.parentPages := rfl

@[simp] theorem setInitialized_initialized (s : BtreeCursor) :
    s.setInitialized.initialized = true := rfl

end BtreeCursor

/-- A method of the cursor on `&mut self`. -/
abbrev CursorM := EStateM Error BtreeCursor

/-! ### Running actions -/

section Run

variable {ε σ α β : Type}

@[simp] theorem EStateM.bind_apply (x : EStateM ε σ α) (f : α → EStateM ε σ β) (s : σ) :
    (x >>= f) s = match x s with
      | .ok a s' => f a s'
      | .error e s' => .error e s' := by
  show EStateM.bind x f s = _
  unfold EStateM.bind
  cases x s <;> rfl

@[simp] theorem EStateM.pure_apply (a : α) (s : σ) : (pure a : EStateM ε σ α) s = .ok a s := rfl

@[simp] theorem EStateM.get_apply (s : σ) : (get : EStateM ε σ σ) s = .ok s s := rfl

@[simp] theorem EStateM.set_apply (s s' : σ) : (set s' : EStateM ε σ PUnit) s = .ok () s' := rfl

@[simp] theorem EStateM.modify_apply (f : σ → σ) (s : σ) :
    (modify f : EStateM ε σ PUnit) s = .ok () (f s) := rfl

@[simp] theorem EStateM.throw_apply (e : ε) (s : σ) : (throw e : EStateM ε σ α) s = .error e s :=
  rfl

@[simp] theorem EStateM.discard_apply (x : EStateM ε σ α) (s : σ) :
    (discard x) s = match x s with
      | .ok _ s' => .ok () s'
      | .error e s' => .error e s' := by
  show EStateM.map _ x s = _
  unfold EStateM.map
  cases x s <;> rfl

@[simp] theorem EStateM.map_apply (f : α → β) (x : EStateM ε σ α) (s : σ) :
    (f <$> x) s = match x s with
      | .ok a s' => .ok (f a) s'
      | .error e s' => .error e s' := by
  show EStateM.map f x s = _
  unfold EStateM.map
  cases x s <;> rfl

@[simp] theorem EStateM.tryCatch_apply (x : EStateM ε σ α) (h : ε → EStateM ε σ α) (s : σ) :
    (tryCatch x h : EStateM ε σ α) s = match x s with
      | .ok a s' => .ok a s'
      | .error e s' => h e s' := by
  show EStateM.tryCatch x h s = _
  unfold EStateM.tryCatch
  cases x s <;> rfl

/-- The cursor after an action, whether it returned or failed. -/
def stateOf : EStateM.Result Error BtreeCursor α → BtreeCursor
  | .ok _ s => s
  | .error _ s => s

@[simp] theorem stateOf_ok (a : α) (s : BtreeCursor) :
    stateOf (.ok a s : EStateM.Result Error BtreeCursor α) = s := rfl

@[simp] theorem stateOf_error (e : Error) (s : BtreeCursor) :
    stateOf (.error e s : EStateM.Result Error BtreeCursor α) = s := rfl

@[simp] theorem except_pure {ε α : Type} (a : α) : (pure a : Except ε α) = .ok a := rfl

@[simp] theorem except_throw {ε α : Type} (e : ε) : (throw e : Except ε α) = .error e := rfl

@[simp] theorem except_ok_bind {ε α β : Type} (a : α) (f : α → Except ε β) :
    (Except.ok a >>= f) = f a := rfl

@[simp] theorem except_error_bind {ε α β : Type} (e : ε) (f : α → Except ε β) :
    (Except.error e >>= f) = .error e := rfl

@[simp] theorem except_mapError_ok {ε ε' α : Type} (f : ε → ε') (a : α) :
    (Except.ok a : Except ε α).mapError f = .ok a := rfl

/-- A bind in `Except` succeeds when its first computation does and then its continuation. -/
theorem except_bind_eq_ok {ε α β : Type} {x : Except ε α} {f : α → Except ε β} {b : β} :
    x >>= f = .ok b ↔ ∃ a, x = .ok a ∧ f a = .ok b := by
  cases x <;> simp [bind, Except.bind]

end Run

/-- A decoder result, with the message `map_err` gives its failure. -/
def decode {α : Type} (msg : String) : Option α → CursorM α
  | some a => pure a
  | none => throw (.bail msg)

/-- A fallible pure computation run inside a method. -/
def liftExcept {α : Type} : Except Error α → CursorM α
  | .ok a => pure a
  | .error e => throw e

/-- `assert!(c)`. -/
def assert (c : Bool) (msg : String) : CursorM Unit :=
  if c then pure () else throw (.panic ("assertion failed: " ++ msg))

@[simp] theorem decode_some {α : Type} (msg : String) (a : α) (s : BtreeCursor) :
    decode msg (some a) s = .ok a s := rfl

@[simp] theorem liftExcept_ok {α : Type} (a : α) (s : BtreeCursor) :
    liftExcept (.ok a) s = .ok a s := rfl

@[simp] theorem assert_true (msg : String) (s : BtreeCursor) : assert true msg s = .ok () s :=
  rfl

section Ops

variable (pager : Pager)

/-! ### Descent and ascent -/

/-- The bottom frame of the stack: the last parent, or the current frame. -/
def BtreeCursor.bottom (s : BtreeCursor) : CursorPage :=
  s.parentPages.getLast?.getD s.currentPage

/-- `move_to_root`: truncate the stack to its bottom frame, which keeps its `idx_cell`
(nothing changes when the stack is empty). -/
def moveToRoot : CursorM Unit :=
  modify fun s => { s with currentPage := s.bottom, parentPages := [] }

/-- `move_to_child`: fetch the page and push the current frame. -/
def moveToChild (pid : PageId) : CursorM Unit :=
  if pager.Valid pid then
    modify fun s =>
      { s with currentPage := CursorPage.new pager pid,
               parentPages := s.currentPage :: s.parentPages }
  else throw (.pager pid)

/-- `back_to_parent`: pop a frame, or `false` at the root. -/
def backToParent : CursorM Bool := fun s =>
  match s.parentPages with
  | [] => .ok false s
  | p :: ps => .ok true { s with currentPage := p, parentPages := ps }

/-- The state after `move_to_child pid`. -/
def BtreeCursor.push (s : BtreeCursor) (pid : PageId) : BtreeCursor :=
  { s with currentPage := CursorPage.new pager pid, parentPages := s.currentPage :: s.parentPages }

/-- A move into a valid page pushes a fresh frame of it. -/
theorem moveToChild_of_valid {pid : PageId} (h : pager.Valid pid) (s : BtreeCursor) :
    moveToChild pager pid s = .ok () (s.push pager pid) := by
  simp [moveToChild, h, BtreeCursor.push]

/-- On the root, `back_to_parent` returns `false` and changes nothing. -/
theorem backToParent_nil {s : BtreeCursor} (h : s.parentPages = []) :
    backToParent s = .ok false s := by
  simp [backToParent, h]

/-- Below the root, `back_to_parent` pops the current frame and returns `true`. -/
theorem backToParent_cons {s : BtreeCursor} {p : CursorPage} {ps : List CursorPage}
    (h : s.parentPages = p :: ps) :
    backToParent s = .ok true { s with currentPage := p, parentPages := ps } := by
  simp [backToParent, h]

@[simp] theorem push_setIdxCell_zero (s : BtreeCursor) (pid : PageId) :
    (s.push pager pid).setIdxCell 0 = s.push pager pid := rfl

/-- The `loop` of `move_to_left_most`: follow the left child of cell `0` to a leaf. -/
def descendLeftMost : ℕ → CursorM Unit
  | 0 => throw .outOfFuel
  | fuel + 1 => do
    let cur := (← get).currentPage
    if cur.isLeaf then return
    let pageId ← decode "get btree interior cell page id"
      ((pager.page cur.mem).interiorCellPageId 0)
    moveToChild pager pageId
    descendLeftMost fuel

variable {pager} {s s' : BtreeCursor} {fuel : ℕ}

/-- On a leaf the descent of `move_to_left_most` stops. -/
theorem descendLeftMost_succ_of_isLeaf (h : s.currentPage.isLeaf) :
    descendLeftMost pager (fuel + 1) s = .ok () s := by
  simp [descendLeftMost, h]

/-- On an interior page it moves into the left child of the first cell and goes on. -/
theorem descendLeftMost_succ_of_child {pid : PageId} (h : s.currentPage.isLeaf = false)
    (hc : (pager.page s.currentPage.mem).interiorCellPageId 0 = some pid)
    (hv : pager.Valid pid) :
    descendLeftMost pager (fuel + 1) s = descendLeftMost pager fuel (s.push pager pid) := by
  simp [descendLeftMost, h, hc, moveToChild_of_valid pager hv]

variable (pager) in
/-- `move_to_left_most`: descend into the child selected by `idx_cell` and on to the
left-most leaf below it; `false` when `idx_cell` is past the right child. -/
def moveToLeftMost (fuel : ℕ) : CursorM Bool := do
  let cur := (← get).currentPage
  if cur.isLeaf then throw (.panic "assertion failed: !self.current_page.is_leaf")
  let page := pager.page cur.mem
  let pageId ← match compare cur.idxCell cur.nCells with
    | .lt => decode "get btree interior cell page id" (page.interiorCellPageId cur.idxCell)
    | .eq => pure page.rightPageId
    | .gt => return false
  moveToChild pager pageId
  modify (·.setIdxCell 0)
  descendLeftMost pager fuel
  return true

/-- With `idx_cell ≤ n_cells`, `move_to_left_most` is the descent from the selected
child. -/
theorem moveToLeftMost_of_le (h : s.currentPage.isLeaf = false)
    (hi : s.currentPage.idxCell ≤ s.currentPage.nCells)
    (hn : s.currentPage.nCells = (pager.page s.currentPage.mem).nCells)
    (hv : pager.Valid ((pager.page s.currentPage.mem).childPageId s.currentPage.idxCell))
    (hd : descendLeftMost pager fuel
      (s.push pager ((pager.page s.currentPage.mem).childPageId s.currentPage.idxCell)) =
        .ok () s') :
    moveToLeftMost pager fuel s = .ok true s' := by
  rcases Nat.lt_or_eq_of_le hi with hlt | heq
  · simp [moveToLeftMost, h, Nat.compare_eq_lt.mpr hlt,
      BtreePage.interiorCellPageId_of_lt (hn ▸ hlt), moveToChild_of_valid pager hv, hd]
  · rw [BtreePage.childPageId_of_le (by omega)] at hv hd
    simp [moveToLeftMost, h, Nat.compare_eq_eq.mpr heq, moveToChild_of_valid pager hv, hd]

/-- Past the right child, `move_to_left_most` reports completion. -/
theorem moveToLeftMost_of_gt (h : s.currentPage.isLeaf = false)
    (hi : s.currentPage.nCells < s.currentPage.idxCell) :
    moveToLeftMost pager fuel s = .ok false s := by
  simp [moveToLeftMost, h, Nat.compare_eq_gt.mpr hi]

variable (pager)

/-! ### Positioning -/

/-- `move_to_first`. -/
def moveToFirst (fuel : ℕ) : CursorM Unit := do
  moveToRoot
  modify (·.setIdxCell 0)
  if !(← get).currentPage.isLeaf then
    discard <| moveToLeftMost pager fuel
  modify BtreeCursor.setInitialized

/-- The state after `move_to_root` and `idx_cell = 0`. -/
def BtreeCursor.rootAtFirst (s : BtreeCursor) : BtreeCursor :=
  ({ s with currentPage := s.bottom, parentPages := [] } : BtreeCursor).setIdxCell 0

variable {pager} in
/-- On a leaf root, `move_to_first` stays on it, at cell `0`. -/
theorem moveToFirst_of_isLeaf (h : s.bottom.isLeaf) :
    moveToFirst pager fuel s = .ok () s.rootAtFirst.setInitialized := by
  simp [moveToFirst, moveToRoot, h, BtreeCursor.rootAtFirst]

variable {pager} in
/-- On an interior root, `move_to_first` is `move_to_left_most` from cell `0` of the root. -/
theorem moveToFirst_of_moveToLeftMost {b : Bool} (h : s.bottom.isLeaf = false)
    (hl : moveToLeftMost pager fuel s.rootAtFirst = .ok b s') :
    moveToFirst pager fuel s = .ok () s'.setInitialized := by
  have hl' : s.rootAtFirst.currentPage.isLeaf = false := h
  simp only [moveToFirst, moveToRoot, EStateM.bind_apply, EStateM.modify_apply, EStateM.get_apply]
  rw [show ({ s with currentPage := s.bottom, parentPages := [] } : BtreeCursor).setIdxCell 0 =
    s.rootAtFirst from rfl]
  simp [hl', hl]

variable {pager} in
/-- And it fails where `move_to_left_most` fails. -/
theorem moveToFirst_of_moveToLeftMost_error {e : Error} (h : s.bottom.isLeaf = false)
    (hl : moveToLeftMost pager fuel s.rootAtFirst = .error e s') :
    moveToFirst pager fuel s = .error e s' := by
  have hl' : s.rootAtFirst.currentPage.isLeaf = false := h
  simp only [moveToFirst, moveToRoot, EStateM.bind_apply, EStateM.modify_apply, EStateM.get_apply]
  rw [show ({ s with currentPage := s.bottom, parentPages := [] } : BtreeCursor).setIdxCell 0 =
    s.rootAtFirst from rfl]
  simp [hl', hl]

/-- The `while` loop of `move_to_last`: follow `right_page_id` to a leaf. -/
def descendRight : ℕ → CursorM Unit
  | 0 => throw .outOfFuel
  | fuel + 1 => do
    let cur := (← get).currentPage
    if cur.isLeaf then return
    moveToChild pager (pager.page cur.mem).rightPageId
    descendRight fuel

variable {pager} in
/-- On a leaf the descent of `move_to_last` stops. -/
theorem descendRight_succ_of_isLeaf (h : s.currentPage.isLeaf) :
    descendRight pager (fuel + 1) s = .ok () s := by
  simp [descendRight, h]

variable {pager} in
/-- On an interior page it moves into the right child and goes on, without touching the
page's `idx_cell`. -/
theorem descendRight_succ_of_child (h : s.currentPage.isLeaf = false)
    (hv : pager.Valid (pager.page s.currentPage.mem).rightPageId) :
    descendRight pager (fuel + 1) s =
      descendRight pager fuel (s.push pager (pager.page s.currentPage.mem).rightPageId) := by
  simp [descendRight, h, moveToChild_of_valid pager hv]

/-- `move_to_last`: on a root without cells stay at cell `0`, otherwise descend to the last
leaf and stop on its last cell. `n_cells - 1` is a subtraction on `u16`, which panics on a
leaf without cells (a release build would wrap it to `65535`). -/
def moveToLast (fuel : ℕ) : CursorM Unit := do
  moveToRoot
  if (← get).currentPage.nCells = 0 then
    modify (·.setIdxCell 0)
  else
    descendRight pager fuel
    if (← get).currentPage.nCells = 0 then throw (.panic "attempt to subtract with overflow")
    modify fun s => s.setIdxCell (s.currentPage.nCells - 1)
  modify BtreeCursor.setInitialized

variable {pager} in
/-- On an empty root, `move_to_last` stays on it, at cell `0`. -/
theorem moveToLast_of_empty (h : s.bottom.nCells = 0) :
    moveToLast pager fuel s = .ok ()
      (({ s with currentPage := s.bottom, parentPages := [] } : BtreeCursor).setIdxCell
        0).setInitialized := by
  simp [moveToLast, moveToRoot, h]

variable {pager} in
/-- Otherwise it descends to the last leaf and, if that leaf has a cell, stops on its last
cell. -/
theorem moveToLast_of_descendRight (h : s.bottom.nCells ≠ 0)
    (hd : descendRight pager fuel { s with currentPage := s.bottom, parentPages := [] } =
      .ok () s') (hn : s'.currentPage.nCells ≠ 0) :
    moveToLast pager fuel s =
      .ok () ((s'.setIdxCell (s'.currentPage.nCells - 1)).setInitialized) := by
  simp [moveToLast, moveToRoot, h, hd, hn]

variable {pager} in
/-- A last leaf without cells makes `n_cells - 1` underflow. -/
theorem moveToLast_of_emptyLeaf (h : s.bottom.nCells ≠ 0)
    (hd : descendRight pager fuel { s with currentPage := s.bottom, parentPages := [] } =
      .ok () s') (hn : s'.currentPage.nCells = 0) :
    moveToLast pager fuel s = .error (.panic "attempt to subtract with overflow") s' := by
  simp [moveToLast, moveToRoot, h, hd, hn]

variable {pager} in
/-- And it fails where the descent fails. -/
theorem moveToLast_of_descendRight_error {e : Error} (h : s.bottom.nCells ≠ 0)
    (hd : descendRight pager fuel { s with currentPage := s.bottom, parentPages := [] } =
      .error e s') :
    moveToLast pager fuel s = .error e s' := by
  simp [moveToLast, moveToRoot, h, hd]

/-- The binary search of `table_move_to` over cells `i_min ..< i_max`, returning the
final `i_min` and `max_cell_key`. The bound exits the loop as `i_min < i_max` does. -/
def tableSearch (page : BtreePage) (key : ℤ) :
    ℕ → ℕ → ℕ → Option ℤ → Except Error (ℕ × Option ℤ)
  | 0, iMin, _, maxCellKey => .ok (iMin, maxCellKey)
  | bound + 1, iMin, iMax, maxCellKey =>
    if iMin < iMax then
      let iMid := (iMin + iMax) / 2
      match page.tableCellKey iMid with
      | none => .error (.bail "parse table cell key")
      | some cellKey =>
        match compare key cellKey with
        | .lt => tableSearch page key bound iMin iMid (some cellKey)
        | .eq => .ok (iMid, some cellKey)
        | .gt => tableSearch page key bound (iMid + 1) iMax maxCellKey
    else .ok (iMin, maxCellKey)

/-- The `loop` of `table_move_to`. -/
def tableMoveToLoop (key : ℤ) : ℕ → CursorM (Option ℤ)
  | 0 => throw .outOfFuel
  | fuel + 1 => do
    let cur := (← get).currentPage
    if !cur.pageType.isTable then throw (.bail "not a table page")
    let page := pager.page cur.mem
    let (iMin, maxCellKey) ← liftExcept (tableSearch page key cur.nCells 0 cur.nCells none)
    modify (·.setIdxCell iMin)
    if cur.isLeaf then
      modify BtreeCursor.setInitialized
      return maxCellKey
    let nextPageId ← if iMin = cur.nCells then pure page.rightPageId
      else decode "get btree interior cell page id" (page.interiorCellPageId iMin)
    moveToChild pager nextPageId
    tableMoveToLoop key fuel

section TableMoveToLoop

variable {pager} {key : ℤ} {iMin : ℕ} {maxCellKey : Option ℤ}
  (hx : s.currentPage.pageType.isTable)
  (hs : tableSearch (pager.page s.currentPage.mem) key s.currentPage.nCells 0
    s.currentPage.nCells none = .ok (iMin, maxCellKey))
include hx hs

/-- On a leaf, the loop stops at the position the search found. -/
theorem tableMoveToLoop_leaf (hl : s.currentPage.isLeaf) :
    tableMoveToLoop pager key (fuel + 1) s = .ok maxCellKey (s.setIdxCell iMin).setInitialized := by
  simp [tableMoveToLoop, hx, hs, hl]

/-- On an interior page, a turn of the loop moves into the child the search selects, the
right child past the last cell, and goes on there. -/
theorem tableMoveToLoop_interior (hl : s.currentPage.isLeaf = false) :
    tableMoveToLoop pager key (fuel + 1) s =
      (if iMin = s.currentPage.nCells then do
          moveToChild pager (pager.page s.currentPage.mem).rightPageId
          tableMoveToLoop pager key fuel
        else do
          let y ← decode "get btree interior cell page id"
            ((pager.page s.currentPage.mem).interiorCellPageId iMin)
          moveToChild pager y
          tableMoveToLoop pager key fuel) (s.setIdxCell iMin) := by
  simp [tableMoveToLoop, hx, hs, hl]

/-- On an interior page, the loop descends into the child the search selects. -/
theorem tableMoveToLoop_child (hl : s.currentPage.isLeaf = false)
    (hm : iMin ≤ s.currentPage.nCells)
    (hn : s.currentPage.nCells = (pager.page s.currentPage.mem).nCells)
    (hv : pager.Valid ((pager.page s.currentPage.mem).childPageId iMin)) :
    tableMoveToLoop pager key (fuel + 1) s = tableMoveToLoop pager key fuel
      ((s.setIdxCell iMin).push pager ((pager.page s.currentPage.mem).childPageId iMin)) := by
  rw [tableMoveToLoop_interior hx hs hl]
  rcases Nat.lt_or_eq_of_le hm with hlt | rfl
  · have hc := BtreePage.interiorCellPageId_of_lt (hn ▸ hlt)
    simp [hlt.ne, hc, moveToChild_of_valid _ hv]
  · rw [BtreePage.childPageId_of_le (le_of_eq hn.symm)] at hv ⊢
    simp [moveToChild_of_valid _ hv]

end TableMoveToLoop

/-- `table_move_to`: descend to the leaf position of `key`, and return the key of the
cell found there. -/
def tableMoveTo (fuel : ℕ) (key : ℤ) : CursorM (Option ℤ) := do
  moveToRoot
  tableMoveToLoop pager key fuel

/-- The outcome of the binary search of `index_move_to`: an equal cell, or the final
`i_min`. -/
inductive IndexSearch
  | found (i : ℕ)
  | notFound (iMin : ℕ)
  deriving DecidableEq, Repr

/-- The binary search of `index_move_to`; `compareRecord` is `compare_record(keys, ·)`. -/
def indexSearch (page : BtreePage) (compareRecord : PayloadInfo → Except Error Ordering) :
    ℕ → ℕ → ℕ → Except Error IndexSearch
  | 0, iMin, _ => .ok (.notFound iMin)
  | bound + 1, iMin, iMax =>
    if iMin < iMax then
      let iMid := (iMin + iMax) / 2
      match page.indexCellKey iMid with
      | none => .error (.bail "parse index cell key")
      | some payloadInfo =>
        match compareRecord payloadInfo with
        | .error e => .error e
        | .ok .lt => indexSearch page compareRecord bound iMin iMid
        | .ok .eq => .ok (.found iMid)
        | .ok .gt => indexSearch page compareRecord bound (iMid + 1) iMax
    else .ok (.notFound iMin)

/-- The climbing `loop` shared by `index_move_to` and `move_next`: pop frames whose
`idx_cell` is at their right child; past the root, mark the traversal completed. -/
def indexClimb : ℕ → CursorM Unit
  | 0 => throw .outOfFuel
  | fuel + 1 => do
    if ← backToParent then
      let cur := (← get).currentPage
      if cur.idxCell = cur.nCells then indexClimb fuel
    else
      modify BtreeCursor.incIdxCell

/-- Past the root, the climb steps the root frame past its right child and stops. -/
theorem indexClimb_succ_nil (h : s.parentPages = []) :
    indexClimb (fuel + 1) s = .ok () s.incIdxCell := by
  simp [indexClimb, backToParent_nil h]

/-- A parent frame at its right child is left behind too: the climb goes on. -/
theorem indexClimb_succ_right {g : CursorPage} {gs : List CursorPage}
    (h : s.parentPages = g :: gs) (hg : g.idxCell = g.nCells) :
    indexClimb (fuel + 1) s = indexClimb fuel { s with currentPage := g, parentPages := gs } := by
  simp [indexClimb, backToParent_cons h, hg]

/-- A parent frame at one of its cells is where the climb stops. -/
theorem indexClimb_succ_stop {g : CursorPage} {gs : List CursorPage}
    (h : s.parentPages = g :: gs) (hg : g.idxCell ≠ g.nCells) :
    indexClimb (fuel + 1) s = .ok () { s with currentPage := g, parentPages := gs } := by
  simp [indexClimb, backToParent_cons h, hg]

/-- The `loop` of `index_move_to`. -/
def indexMoveToLoop (compareRecord : PayloadInfo → Except Error Ordering) :
    ℕ → CursorM Unit
  | 0 => throw .outOfFuel
  | fuel + 1 => do
    let cur := (← get).currentPage
    if !cur.pageType.isIndex then throw (.bail "not an index page")
    let page := pager.page cur.mem
    match ← liftExcept (indexSearch page compareRecord cur.nCells 0 cur.nCells) with
    | .found i =>
      modify (·.setIdxCell i)
      modify BtreeCursor.setInitialized
    | .notFound iMin =>
      modify (·.setIdxCell iMin)
      if cur.isLeaf then
        if iMin = cur.nCells then indexClimb fuel
        modify BtreeCursor.setInitialized
      else
        let nextPageId ← if iMin = cur.nCells then pure page.rightPageId
          else decode "get btree interior cell page id" (page.interiorCellPageId iMin)
        moveToChild pager nextPageId
        indexMoveToLoop compareRecord fuel

section IndexMoveToLoop

variable {pager} {compareRecord : PayloadInfo → Except Error Ordering}
  (hx : s.currentPage.pageType.isIndex)
include hx

/-- On an equal cell, the loop stops there. -/
theorem indexMoveToLoop_found {i : ℕ}
    (hs : indexSearch (pager.page s.currentPage.mem) compareRecord s.currentPage.nCells 0
      s.currentPage.nCells = .ok (.found i)) :
    indexMoveToLoop pager compareRecord (fuel + 1) s = .ok () (s.setIdxCell i).setInitialized := by
  simp [indexMoveToLoop, hx, hs]

/-- On a leaf, the loop stops at the first cell above the keys. -/
theorem indexMoveToLoop_leaf {m : ℕ}
    (hs : indexSearch (pager.page s.currentPage.mem) compareRecord s.currentPage.nCells 0
      s.currentPage.nCells = .ok (.notFound m))
    (hl : s.currentPage.isLeaf) (hm : m ≠ s.currentPage.nCells) :
    indexMoveToLoop pager compareRecord (fuel + 1) s = .ok () (s.setIdxCell m).setInitialized := by
  simp [indexMoveToLoop, hx, hs, hl, hm]

/-- Past the last cell of a leaf, the loop climbs. -/
theorem indexMoveToLoop_climb {t : BtreeCursor}
    (hs : indexSearch (pager.page s.currentPage.mem) compareRecord s.currentPage.nCells 0
      s.currentPage.nCells = .ok (.notFound s.currentPage.nCells))
    (hl : s.currentPage.isLeaf)
    (hc : indexClimb fuel (s.setIdxCell s.currentPage.nCells) = .ok () t) :
    indexMoveToLoop pager compareRecord (fuel + 1) s = .ok () t.setInitialized := by
  simp [indexMoveToLoop, hx, hs, hl, hc]

/-- On an interior page, a turn of the loop moves into the child the search selects, the
right child past the last cell, and goes on there. -/
theorem indexMoveToLoop_interior {m : ℕ}
    (hs : indexSearch (pager.page s.currentPage.mem) compareRecord s.currentPage.nCells 0
      s.currentPage.nCells = .ok (.notFound m))
    (hl : s.currentPage.isLeaf = false) :
    indexMoveToLoop pager compareRecord (fuel + 1) s =
      (if m = s.currentPage.nCells then do
          moveToChild pager (pager.page s.currentPage.mem).rightPageId
          indexMoveToLoop pager compareRecord fuel
        else do
          let y ← decode "get btree interior cell page id"
            ((pager.page s.currentPage.mem).interiorCellPageId m)
          moveToChild pager y
          indexMoveToLoop pager compareRecord fuel) (s.setIdxCell m) := by
  simp [indexMoveToLoop, hx, hs, hl]

/-- On an interior page, the loop descends into the child the search selects. -/
theorem indexMoveToLoop_child {m : ℕ}
    (hs : indexSearch (pager.page s.currentPage.mem) compareRecord s.currentPage.nCells 0
      s.currentPage.nCells = .ok (.notFound m))
    (hl : s.currentPage.isLeaf = false) (hm : m ≤ s.currentPage.nCells)
    (hn : s.currentPage.nCells = (pager.page s.currentPage.mem).nCells)
    (hv : pager.Valid ((pager.page s.currentPage.mem).childPageId m)) :
    indexMoveToLoop pager compareRecord (fuel + 1) s = indexMoveToLoop pager compareRecord fuel
      ((s.setIdxCell m).push pager ((pager.page s.currentPage.mem).childPageId m)) := by
  rw [indexMoveToLoop_interior hx hs hl]
  rcases Nat.lt_or_eq_of_le hm with hlt | rfl
  · have hc := BtreePage.interiorCellPageId_of_lt (hn ▸ hlt)
    simp [hlt.ne, hc, moveToChild_of_valid _ hv]
  · rw [BtreePage.childPageId_of_le (le_of_eq hn.symm)] at hv ⊢
    simp [moveToChild_of_valid _ hv]

end IndexMoveToLoop

/-- `index_move_to`: position on a cell equal to the keys, or on the next cell. -/
def indexMoveTo (fuel : ℕ) (compareRecord : PayloadInfo → Except Error Ordering) :
    CursorM Unit := do
  moveToRoot
  indexMoveToLoop pager compareRecord fuel

/-! ### Iteration -/

/-- The climbing `loop` of `move_next` on a table: pop a frame, step to its next child
and descend to that child's left-most leaf; past the root, step once more. -/
def tableClimb (fuel : ℕ) : ℕ → CursorM Unit
  | 0 => throw .outOfFuel
  | loopFuel + 1 => do
    if !(← backToParent) then
      modify BtreeCursor.incIdxCell
      return
    modify BtreeCursor.incIdxCell
    if ← moveToLeftMost pager fuel then return
    tableClimb fuel loopFuel

variable {pager} in
/-- Past the root, the climb on a table steps the root frame once more and stops. -/
theorem tableClimb_succ_nil {n : ℕ} (h : s.parentPages = []) :
    tableClimb pager fuel (n + 1) s = .ok () s.incIdxCell := by
  simp [tableClimb, backToParent_nil h]

variable {pager} in
/-- When the parent has a next child, the climb descends to its left-most leaf and stops
there. -/
theorem tableClimb_succ_found {n : ℕ} {g : CursorPage} {gs : List CursorPage}
    (h : s.parentPages = g :: gs)
    (hl : moveToLeftMost pager fuel
      ({ s with currentPage := g, parentPages := gs } : BtreeCursor).incIdxCell = .ok true s') :
    tableClimb pager fuel (n + 1) s = .ok () s' := by
  simp only [BtreeCursor.incIdxCell_eq] at hl
  simp [tableClimb, backToParent_cons h, hl]

variable {pager} in
/-- When the parent steps past its right child, the climb goes on from there. -/
theorem tableClimb_succ_next {n : ℕ} {g : CursorPage} {gs : List CursorPage}
    (h : s.parentPages = g :: gs)
    (hl : moveToLeftMost pager fuel
      ({ s with currentPage := g, parentPages := gs } : BtreeCursor).incIdxCell = .ok false s') :
    tableClimb pager fuel (n + 1) s = tableClimb pager fuel n s' := by
  simp only [BtreeCursor.incIdxCell_eq] at hl
  simp [tableClimb, backToParent_cons h, hl]

/-- `move_next`. -/
def moveNext (fuel : ℕ) : CursorM Unit := do
  let s ← get
  if !s.initialized then throw (.bail "cursor is not initialized")
  if s.parentPages.isEmpty ∧ (s.currentPage.idxCell = s.currentPage.nCells + 1 ∨
      s.currentPage.nCells = 0) then return
  modify BtreeCursor.incIdxCell
  let cur := (← get).currentPage
  if cur.isLeaf ∧ cur.idxCell < cur.nCells then return
  if cur.pageType.isTable then
    assert cur.isLeaf "self.current_page.is_leaf"
    assert (cur.idxCell = cur.nCells) "self.current_page.idx_cell == self.current_page.n_cells"
    tableClimb pager fuel fuel
  else if cur.pageType.isIndex then
    if !cur.isLeaf ∧ cur.idxCell ≤ cur.nCells then
      let found ← moveToLeftMost pager fuel
      assert found "self.move_to_left_most()?"
    else
      assert (cur.isLeaf ∧ cur.idxCell = cur.nCells)
        "self.current_page.is_leaf && self.current_page.idx_cell == self.current_page.n_cells"
      indexClimb fuel
  else throw (.bail "not a btree page")

/-- The completed state, on which `move_next` returns at once: back at the root, and
past its last cell or on an empty root. -/
def BtreeCursor.Completed (s : BtreeCursor) : Prop :=
  s.parentPages = [] ∧
    (s.currentPage.idxCell = s.currentPage.nCells + 1 ∨ s.currentPage.nCells = 0)

section MoveNext

variable {pager} (hi : s.initialized)
include hi

/-- A completed cursor stays where it is. -/
theorem moveNext_of_completed (h : s.Completed) : moveNext pager fuel s = .ok () s := by
  simp [moveNext, hi, h.1, h.2]

/-- Within a leaf, `move_next` steps to the next cell. -/
theorem moveNext_of_lt (hl : s.currentPage.isLeaf)
    (h : s.currentPage.idxCell + 1 < s.currentPage.nCells) :
    moveNext pager fuel s = .ok () s.incIdxCell := by
  simp [moveNext, hi, hl, h, show s.currentPage.idxCell ≠ s.currentPage.nCells + 1 by omega,
    show s.currentPage.nCells ≠ 0 by omega]

/-- Off the last cell of a table leaf, `move_next` climbs. -/
theorem moveNext_table (hl : s.currentPage.isLeaf) (ht : s.currentPage.pageType.isTable)
    (h : s.currentPage.idxCell + 1 = s.currentPage.nCells) :
    moveNext pager fuel s = tableClimb pager fuel fuel s.incIdxCell := by
  simp [moveNext, hi, hl, ht, h, show s.currentPage.idxCell ≠ s.currentPage.nCells + 1 by omega,
    show s.currentPage.nCells ≠ 0 by omega]

/-- Off the last cell of an index leaf, `move_next` climbs. -/
theorem moveNext_index_leaf (hl : s.currentPage.isLeaf)
    (ht : s.currentPage.pageType.isTable = false) (hx : s.currentPage.pageType.isIndex)
    (h : s.currentPage.idxCell + 1 = s.currentPage.nCells) :
    moveNext pager fuel s = indexClimb fuel s.incIdxCell := by
  simp [moveNext, hi, hl, ht, hx, h,
    show s.currentPage.idxCell ≠ s.currentPage.nCells + 1 by omega,
    show s.currentPage.nCells ≠ 0 by omega]

/-- From an interior cell of an index, `move_next` descends into the next child. -/
theorem moveNext_index_interior (hc : s.currentPage.idxCell < s.currentPage.nCells)
    (hl : s.currentPage.isLeaf = false)
    (ht : s.currentPage.pageType.isTable = false) (hx : s.currentPage.pageType.isIndex)
    (hd : moveToLeftMost pager fuel s.incIdxCell = .ok true s') :
    moveNext pager fuel s = .ok () s' := by
  simp only [BtreeCursor.incIdxCell_eq] at hd
  simp [moveNext, hi, hl, ht, hx, hd,
    show s.currentPage.idxCell + 1 ≤ s.currentPage.nCells by omega,
    show s.currentPage.idxCell ≠ s.currentPage.nCells + 1 by omega,
    show s.currentPage.nCells ≠ 0 by omega]

end MoveNext

/-! ### Reads -/

/-- `get_table_key`. -/
def getTableKey (s : BtreeCursor) : Except Error (Option ℤ) :=
  if !s.initialized then .error (.bail "cursor is not initialized")
  else if !s.currentPage.pageType.isTable then .error (.bail "not a table page")
  else if s.currentPage.nCells ≤ s.currentPage.idxCell then .ok none
  else if !s.currentPage.isLeaf then
    .error (.panic "assertion failed: self.current_page.is_leaf")
  else match (pager.page s.currentPage.mem).tableCellKey s.currentPage.idxCell with
    | some key => .ok (some key)
    | none => .error (.bail "parse table cell key")

/-- `get_table_payload`: the rowid and the payload of the current cell. -/
def getTablePayload (s : BtreeCursor) : Except Error (Option (ℤ × PayloadInfo)) :=
  if !s.initialized then .error (.bail "cursor is not initialized")
  else if !s.currentPage.pageType.isTable then .error (.bail "not a table page")
  else if s.currentPage.nCells ≤ s.currentPage.idxCell then .ok none
  else if !s.currentPage.isLeaf then
    .error (.panic "assertion failed: self.current_page.is_leaf")
  else match (pager.page s.currentPage.mem).leafTableCell s.currentPage.idxCell with
    | some cell => .ok (some cell)
    | none => .error (.bail "parse btree leaf table cell")

/-- `get_index_payload`: the payload of the current cell, on a leaf or interior page. -/
def getIndexPayload (s : BtreeCursor) : Except Error (Option PayloadInfo) :=
  if !s.initialized then .error (.bail "cursor is not initialized")
  else if !s.currentPage.pageType.isIndex then .error (.bail "not a index page")
  else if s.currentPage.nCells ≤ s.currentPage.idxCell then .ok none
  else match (pager.page s.currentPage.mem).indexCellKey s.currentPage.idxCell with
    | some payload => .ok (some payload)
    | none => .error (.bail "parse btree leaf index cell")

end Ops

end Prsqlite
