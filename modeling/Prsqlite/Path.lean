import Prsqlite.Cursor
import Prsqlite.Tree

/-!
# The Cursor's Path

The frames of a cursor, `current_page` and then `parent_pages` from the innermost out,
are meant to be a path of the tree: its last frame is the root, each parent frame selects
the frame below it through its `idx_cell`, and each frame caches its page's header.
`PathOk` states this. `move_to_last` breaks it: it follows `right_page_id` without
setting the parent's `idx_cell` to `n_cells`, so the root frame keeps whatever `idx_cell`
it had (`moveToLast_breaks_pathOk`).

What every operation does keep is the bottom frame: `RootOk` says it is a frame of the
root page with the root's header. Since every positioning operation starts with
`move_to_root`, this is all the later modules need of an arbitrary earlier state.

## Main results

* `Primitive`: an invariant kept by the five primitive moves of the cursor (push, pop,
  truncation to the root, `idx_cell` and `initialized` updates) is kept by every
  operation, whether it returns or fails (`Primitive.moveNext` and its siblings).
* `Reachable`: the states of a cursor created by `BtreeCursor::new` and moved by any
  sequence of positioning operations, successful or not, with any fuel.
* `Reachable.rootOk`: every reachable state has a correct root frame.
-/

namespace Prsqlite

variable (pager : Pager) (root : PageId)

/-- The cached `n_cells`, `page_type` and `is_leaf` of a frame are its page's. -/
def FrameOk (f : CursorPage) : Prop :=
  f.nCells = (pager.page f.mem).nCells ∧ f.pageType = (pager.page f.mem).pageType ∧
    f.isLeaf = (pager.page f.mem).pageType.isLeaf

/-- The parent frame `g` selects the frame `f`: the left child of cell `idx_cell`, or the
right child when `idx_cell = n_cells`. -/
def Linked (f g : CursorPage) : Prop :=
  g.idxCell ≤ g.nCells ∧ f.mem = (pager.page g.mem).childPageId g.idxCell

/-- The frame `f` and the frames `gs` above it form a path from the root. -/
def PathOk : CursorPage → List CursorPage → Prop
  | f, [] => f.mem = root ∧ FrameOk pager f
  | f, g :: gs => FrameOk pager f ∧ Linked pager f g ∧ PathOk g gs

/-- Whether a frame caches its page's header can be computed. -/
instance (f : CursorPage) : Decidable (FrameOk pager f) :=
  inferInstanceAs (Decidable (_ ∧ _ ∧ _))

/-- Whether a parent frame selects a frame can be computed. -/
instance (f g : CursorPage) : Decidable (Linked pager f g) :=
  inferInstanceAs (Decidable (_ ∧ _))

/-- Whether the frames form a path from the root can be computed, frame by frame. -/
instance decPathOk : ∀ f gs, Decidable (PathOk pager root f gs)
  | _, [] => inferInstanceAs (Decidable (_ ∧ _))
  | _, g :: gs =>
    have := decPathOk g gs
    inferInstanceAs (Decidable (_ ∧ _ ∧ _))

/-- The bottom frame is a frame of the root page. -/
def RootOk (s : BtreeCursor) : Prop :=
  s.bottom.mem = root ∧ FrameOk pager s.bottom

/-- A fresh frame caches its page's header. -/
theorem frameOk_new (pid : PageId) : FrameOk pager (CursorPage.new pager pid) :=
  ⟨rfl, rfl, rfl⟩

/-- Moving a frame to another cell keeps its cached header. -/
theorem FrameOk.setIdx {f : CursorPage} (hf : FrameOk pager f) (i : ℕ) :
    FrameOk pager { f with idxCell := i } := hf

/-- A frame that caches its page's header is a fresh frame of that page, but for its
`idx_cell`. -/
theorem FrameOk.eq_new {f : CursorPage} (hf : FrameOk pager f) (i : ℕ) :
    { f with idxCell := i } = { CursorPage.new pager f.mem with idxCell := i } := by
  obtain ⟨hn, ht, hl⟩ := hf
  cases f
  simp only at hn ht hl
  subst hn ht hl
  rfl

/-! ### Invariants kept by every operation -/

section Keeps

variable {α β : Type}

/-- The action `x` keeps `P`, whether it returns or fails. -/
def Keeps (P : BtreeCursor → Prop) (x : CursorM α) : Prop :=
  ∀ s, P s → P (stateOf (x s))

namespace Keeps

variable {P : BtreeCursor → Prop}

/-- A bind keeps `P` if its first action does and each continuation does: on failure the
state is the first action's. -/
theorem bind {x : CursorM α} {f : α → CursorM β} (hx : Keeps P x) (hf : ∀ a, Keeps P (f a)) :
    Keeps P (x >>= f) := by
  intro s hs
  have h := hx s hs
  simp only [EStateM.bind_apply]
  cases hxs : x s with
  | ok a s' => rw [hxs] at h; exact hf a s' h
  | error e s' => rw [hxs] at h; exact h

/-- Returning a value leaves the state alone. -/
theorem pure (a : α) : Keeps P (pure a : CursorM α) := fun _ hs => hs

/-- Reading the state leaves it alone. -/
theorem get : Keeps P (get : CursorM BtreeCursor) := fun _ hs => hs

/-- An error leaves the state as it was. -/
theorem throw (e : Error) : Keeps P (throw e : CursorM α) := fun _ hs => hs

/-- An update keeps `P` if the function does. -/
theorem modify {f : BtreeCursor → BtreeCursor} (hf : ∀ s, P s → P (f s)) :
    Keeps P (modify f : CursorM Unit) := hf

/-- A branch keeps `P` if both its arms do. -/
theorem ite {c : Prop} [Decidable c] {x y : CursorM α} (hx : Keeps P x) (hy : Keeps P y) :
    Keeps P (if c then x else y) := by
  split <;> assumption

/-- Decoding a field of a page leaves the state alone, whether it succeeds or not. -/
theorem decode (msg : String) (o : Option α) : Keeps P (Prsqlite.decode msg o) := by
  cases o <;> exact fun _ hs => hs

/-- A computation on the pages alone leaves the state alone. -/
theorem liftExcept (r : Except Error α) : Keeps P (Prsqlite.liftExcept r) := by
  cases r <;> exact fun _ hs => hs

/-- An assertion leaves the state alone, whether it holds or fails. -/
theorem assert (c : Bool) (msg : String) : Keeps P (Prsqlite.assert c msg) := by
  cases c <;> exact fun _ hs => hs

/-- Dropping the value of an action keeps what the action keeps. -/
theorem discard {x : CursorM α} (hx : Keeps P x) : Keeps P (discard x) := by
  intro s hs
  have h := hx s hs
  show P (stateOf (EStateM.map _ x s))
  unfold EStateM.map
  cases hxs : x s <;> simpa [hxs] using h

end Keeps

/-- `P` is kept by the primitive moves of the cursor: pushing a child, popping a
parent, truncating to the root, and updating `idx_cell` and `initialized`. -/
structure Primitive (P : BtreeCursor → Prop) : Prop where
  child : ∀ pid, Keeps P (moveToChild pager pid)
  parent : Keeps P backToParent
  root : Keeps P moveToRoot
  idx : ∀ s i, P s → P (s.setIdxCell i)
  init : ∀ s, P s → P s.setInitialized

namespace Primitive

variable {pager} {P : BtreeCursor → Prop} (hP : Primitive pager P)
include hP

/-- Stepping to the next cell is an update of `idx_cell`. -/
theorem inc (s : BtreeCursor) (hs : P s) : P s.incIdxCell := hP.idx s _ hs

/-- The descent of `move_to_left_most` keeps `P`, by induction on its fuel. -/
theorem descendLeftMost : ∀ fuel, Keeps P (Prsqlite.descendLeftMost pager fuel)
  | 0 => Keeps.throw _
  | fuel + 1 => by
    unfold Prsqlite.descendLeftMost
    repeat'
      with_reducible first
        | exact hP.child _ | exact descendLeftMost fuel | refine Keeps.bind ?_ (fun _ => ?_)
        | exact Keeps.pure _ | exact Keeps.get | refine Keeps.ite ?_ ?_ | exact Keeps.decode _ _


/-- `move_to_left_most` keeps `P`. -/
theorem moveToLeftMost (fuel : ℕ) : Keeps P (Prsqlite.moveToLeftMost pager fuel) := by
  unfold Prsqlite.moveToLeftMost
  repeat'
    with_reducible first
      | exact hP.child _ | exact hP.descendLeftMost fuel | exact Keeps.modify (hP.idx · 0)
      | refine Keeps.bind ?_ (fun _ => ?_) | exact Keeps.pure _ | exact Keeps.get
      | exact Keeps.throw _ | refine Keeps.ite ?_ ?_ | exact Keeps.decode _ _ | split

/-- `move_to_first` keeps `P`. -/
theorem moveToFirst (fuel : ℕ) : Keeps P (Prsqlite.moveToFirst pager fuel) := by
  unfold Prsqlite.moveToFirst
  repeat'
    with_reducible first
      | exact hP.root | exact (hP.moveToLeftMost fuel).discard | exact Keeps.modify (hP.idx · 0)
      | exact Keeps.modify hP.init | refine Keeps.bind ?_ (fun _ => ?_) | exact Keeps.pure _
      | exact Keeps.get | refine Keeps.ite ?_ ?_

/-- The right-most descent of `move_to_last` keeps `P`, by induction on its fuel. -/
theorem descendRight : ∀ fuel, Keeps P (Prsqlite.descendRight pager fuel)
  | 0 => Keeps.throw _
  | fuel + 1 => by
    unfold Prsqlite.descendRight
    repeat'
      with_reducible first
        | exact hP.child _ | exact descendRight fuel | refine Keeps.bind ?_ (fun _ => ?_)
        | exact Keeps.pure _ | exact Keeps.get | refine Keeps.ite ?_ ?_

/-- `move_to_last` keeps `P`, also when `n_cells - 1` underflows. -/
theorem moveToLast (fuel : ℕ) : Keeps P (Prsqlite.moveToLast pager fuel) := by
  unfold Prsqlite.moveToLast
  repeat'
    with_reducible first
      | exact hP.root | exact hP.descendRight fuel | exact Keeps.modify (hP.idx · _)
      | exact Keeps.modify hP.init | refine Keeps.bind ?_ (fun _ => ?_) | exact Keeps.pure _
      | exact Keeps.get | exact Keeps.throw _ | refine Keeps.ite ?_ ?_

/-- The loop of `table_move_to` keeps `P`, by induction on its fuel. -/
theorem tableMoveToLoop (key : ℤ) : ∀ fuel, Keeps P (Prsqlite.tableMoveToLoop pager key fuel)
  | 0 => Keeps.throw _
  | fuel + 1 => by
    unfold Prsqlite.tableMoveToLoop
    repeat'
      with_reducible first
        | exact hP.child _ | exact tableMoveToLoop key fuel | exact Keeps.modify (hP.idx · _)
        | exact Keeps.modify hP.init | refine Keeps.bind ?_ (fun _ => ?_) | exact Keeps.pure _
        | exact Keeps.get | exact Keeps.throw _ | refine Keeps.ite ?_ ?_ | exact Keeps.decode _ _
        | exact Keeps.liftExcept _

/-- `table_move_to` keeps `P`. -/
theorem tableMoveTo (fuel : ℕ) (key : ℤ) : Keeps P (Prsqlite.tableMoveTo pager fuel key) :=
  Keeps.bind hP.root fun _ => hP.tableMoveToLoop key fuel

/-- The climb of `index_move_to` and `move_next` keeps `P`, by induction on its fuel. -/
theorem indexClimb : ∀ fuel, Keeps P (Prsqlite.indexClimb fuel)
  | 0 => Keeps.throw _
  | fuel + 1 => by
    unfold Prsqlite.indexClimb
    repeat'
      with_reducible first
        | exact hP.parent | exact indexClimb fuel | exact Keeps.modify hP.inc
        | refine Keeps.bind ?_ (fun _ => ?_) | exact Keeps.pure _ | exact Keeps.get
        | refine Keeps.ite ?_ ?_

/-- The loop of `index_move_to` keeps `P`, by induction on its fuel. -/
theorem indexMoveToLoop (cmp : PayloadInfo → Except Error Ordering) :
    ∀ fuel, Keeps P (Prsqlite.indexMoveToLoop pager cmp fuel)
  | 0 => Keeps.throw _
  | fuel + 1 => by
    unfold Prsqlite.indexMoveToLoop
    repeat'
      with_reducible first
        | exact hP.child _ | exact indexMoveToLoop cmp fuel | exact hP.indexClimb fuel
        | exact Keeps.modify (hP.idx · _) | exact Keeps.modify hP.init
        | refine Keeps.bind ?_ (fun _ => ?_) | exact Keeps.pure _ | exact Keeps.get
        | exact Keeps.throw _ | refine Keeps.ite ?_ ?_ | exact Keeps.decode _ _
        | exact Keeps.liftExcept _ | split

/-- `index_move_to` keeps `P`. -/
theorem indexMoveTo (fuel : ℕ) (cmp : PayloadInfo → Except Error Ordering) :
    Keeps P (Prsqlite.indexMoveTo pager fuel cmp) :=
  Keeps.bind hP.root fun _ => hP.indexMoveToLoop cmp fuel

/-- The climb of `move_next` on a table keeps `P`, by induction on its fuel. -/
theorem tableClimb (fuel : ℕ) : ∀ loopFuel, Keeps P (Prsqlite.tableClimb pager fuel loopFuel)
  | 0 => Keeps.throw _
  | loopFuel + 1 => by
    unfold Prsqlite.tableClimb
    repeat'
      with_reducible first
        | exact hP.parent | exact tableClimb fuel loopFuel | exact hP.moveToLeftMost fuel
        | exact Keeps.modify hP.inc | refine Keeps.bind ?_ (fun _ => ?_)
        | exact Keeps.pure _ | exact Keeps.get | refine Keeps.ite ?_ ?_

/-- `move_next` keeps `P`. -/
theorem moveNext (fuel : ℕ) : Keeps P (Prsqlite.moveNext pager fuel) := by
  unfold Prsqlite.moveNext
  repeat'
    with_reducible first
      | exact hP.tableClimb fuel fuel | exact hP.indexClimb fuel | exact hP.moveToLeftMost fuel
      | exact Keeps.modify hP.inc | refine Keeps.bind ?_ (fun _ => ?_)
      | exact Keeps.pure _ | exact Keeps.get | exact Keeps.throw _ | exact Keeps.assert _ _
      | refine Keeps.ite ?_ ?_

end Primitive

end Keeps

/-! ### Reachable states -/

/-- The positioning operations of the cursor, with the fuel of their loops. -/
inductive CursorOp
  | moveToFirst (fuel : ℕ)
  | moveToLast (fuel : ℕ)
  | tableMoveTo (fuel : ℕ) (key : ℤ)
  | indexMoveTo (fuel : ℕ) (compareRecord : PayloadInfo → Except Error Ordering)
  | moveNext (fuel : ℕ)

/-- Running an operation. -/
def CursorOp.run : CursorOp → CursorM Unit
  | .moveToFirst fuel => Prsqlite.moveToFirst pager fuel
  | .moveToLast fuel => Prsqlite.moveToLast pager fuel
  | .tableMoveTo fuel key => discard (Prsqlite.tableMoveTo pager fuel key)
  | .indexMoveTo fuel cmp => Prsqlite.indexMoveTo pager fuel cmp
  | .moveNext fuel => Prsqlite.moveNext pager fuel

/-- Every operation keeps an invariant of the primitive moves. -/
theorem Primitive.run {P : BtreeCursor → Prop} (hP : Primitive pager P) :
    ∀ op : CursorOp, Keeps P (op.run pager)
  | .moveToFirst fuel => hP.moveToFirst fuel
  | .moveToLast fuel => hP.moveToLast fuel
  | .tableMoveTo fuel key => Keeps.bind (hP.tableMoveTo fuel key) fun _ => Keeps.pure _
  | .indexMoveTo fuel cmp => hP.indexMoveTo fuel cmp
  | .moveNext fuel => hP.moveNext fuel

/-- The states of a cursor on `root`: created by `BtreeCursor::new`, then moved by any
sequence of operations, each of which may have returned or failed. The reads take
`&self` and leave the state as it is. -/
inductive Reachable : BtreeCursor → Prop
  | new {s : BtreeCursor} : BtreeCursor.new pager root = .ok s → Reachable s
  | step {s : BtreeCursor} (op : CursorOp) : Reachable s → Reachable (stateOf (op.run pager s))

/-- The root frame is kept by the primitive moves. -/
theorem primitive_rootOk : Primitive pager (RootOk pager root) where
  child pid s hs := by
    unfold moveToChild
    split
    · simpa [RootOk, BtreeCursor.bottom, List.getLast?_cons] using hs
    · exact hs
  parent s hs := by
    unfold backToParent
    rcases h : s.parentPages with _ | ⟨p, ps⟩
    · exact hs
    · simpa [RootOk, BtreeCursor.bottom, h, List.getLast?_cons] using hs
  root _ hs := hs
  idx s i hs := by
    unfold RootOk BtreeCursor.bottom at *
    cases h : s.parentPages.getLast? <;> simp_all [FrameOk]
  init _ hs := hs

/-- **Every reachable state has a correct root frame.** -/
theorem Reachable.rootOk {s : BtreeCursor} (h : Reachable pager root s) : RootOk pager root s := by
  induction h with
  | new hnew =>
    unfold BtreeCursor.new at hnew
    split at hnew
    · cases hnew
      exact ⟨rfl, frameOk_new pager root⟩
    · cases hnew
  | step op _ ih => exact (primitive_rootOk pager root).run pager op _ ih

/-! ### What `move_to_last` breaks -/

/-- On `twoLevelTable`, `move_to_last` from a fresh cursor ends on the right leaf, page 4,
under a root frame whose `idx_cell = 0` still selects the left leaf, page 3. The next
`move_next` climbs to that frame, steps it to the right child and yields row `11` again,
where it should complete. -/
theorem moveToLast_breaks_pathOk :
    twoLevelTable.Subtree false 2 2 ∧
    PathOk twoLevelTable 2 (CursorPage.new twoLevelTable 2) [] ∧
    moveToLast twoLevelTable 2 ⟨CursorPage.new twoLevelTable 2, [], false⟩ =
      .ok () ⟨⟨4, 1, 2, .tableLeaf, true⟩, [⟨2, 0, 1, .tableInterior, false⟩], true⟩ ∧
    ¬ PathOk twoLevelTable 2 ⟨4, 1, 2, .tableLeaf, true⟩ [⟨2, 0, 1, .tableInterior, false⟩] ∧
    ∃ s', moveNext twoLevelTable 2
        ⟨⟨4, 1, 2, .tableLeaf, true⟩, [⟨2, 0, 1, .tableInterior, false⟩], true⟩ = .ok () s' ∧
      getTableKey twoLevelTable s' = .ok (some 11) :=
  ⟨by decide, by decide, rfl, by decide, _, rfl, rfl⟩

end Prsqlite
