import Prsqlite.Path
import Prsqlite.Tree

/-!
# Traversal

This module proves that a cursor positioned by `move_to_first` and moved by `move_next`
yields exactly what the tree holds, in order: the rows of a table tree, every leaf cell
once and no interior cell, and the entries of an index tree, each interior cell between
its left subtree and the next child.

The proof is a simulation. `remaining index F s` is what the cursor in state `s` still
yields: the rest of its current page, then what each parent frame holds after the child
it descended into (`pending`). `Positioned` is the invariant of the traversal: the
frames form a path of the tree (`PathOk`), every frame above the current one is interior,
the cursor is initialized, and it is either on a cell or at the end.

* `moveToFirst_spec`: from any state with a correct root frame, `move_to_first` reaches
  a positioned state whose `remaining` is the whole tree.
* `moveNext_table_spec`, `moveNext_index_spec`: from a positioned state on a cell,
  `move_next` reaches a positioned state whose `remaining` is the tail.
* `getTablePayload_eq`, `getIndexPayload_eq`: the getters read the head of `remaining`.

The main theorems, `table_traversal` and `index_traversal`, assemble these by induction
on the number of `move_next` calls.
-/

namespace Prsqlite

variable (pager : Pager) (root : PageId) (index : Bool)

/-- What the frame `f` still yields after the child it descended into: in an index tree
its cell `idx_cell`, then the children after it; nothing once it is at the right child. -/
def pending (F : ℕ) (f : CursorPage) : List Cell :=
  if h : f.idxCell < (pager.page f.mem).nCells then
    (if index then [(pager.page f.mem).cells.get ⟨f.idxCell, h⟩] else []) ++
      pager.contentsFrom index F (pager.page f.mem) (f.idxCell + 1)
  else []

/-- What the cursor yields from its current position on: the rest of a leaf, or an
interior cell and what follows it, then what every parent frame still yields. -/
def remaining (F : ℕ) (s : BtreeCursor) : List Cell :=
  (if s.currentPage.isLeaf then (pager.page s.currentPage.mem).cells.drop s.currentPage.idxCell
    else pending pager index F s.currentPage) ++ s.parentPages.flatMap (pending pager index F)

/-- The frames form a path of the tree from the root, and the frames above the current
one are interior. -/
def OnPath (s : BtreeCursor) : Prop :=
  PathOk pager root s.currentPage s.parentPages ∧ ∀ g ∈ s.parentPages, g.isLeaf = false

/-- The invariant of a traversal: on a path, initialized, and either on a cell (of a
leaf, or of an interior page in an index tree) or at the end, back at the root. -/
structure Positioned (s : BtreeCursor) : Prop where
  onPath : OnPath pager root s
  initialized : s.initialized = true
  position : s.currentPage.idxCell < s.currentPage.nCells ∧ (s.currentPage.isLeaf ∨ index) ∨
    s.parentPages = [] ∧ s.currentPage.nCells ≤ s.currentPage.idxCell

variable {pager root index}

/-! ### Paths -/

/-- The innermost frame of a path caches its page's header. -/
theorem PathOk.frameOk {f : CursorPage} {gs : List CursorPage}
    (hp : PathOk pager root f gs) : FrameOk pager f := by
  cases gs with
  | nil => exact hp.2
  | cons g gs => exact hp.1

/-- A frame at depth `d` of a tree of height `H` roots a subtree of height `H - d`. -/
theorem PathOk.subtree {H : ℕ} (hwf : pager.Subtree index H root) :
    ∀ {f : CursorPage} {gs : List CursorPage}, PathOk pager root f gs →
      (∀ g ∈ gs, g.isLeaf = false) → ∃ h, pager.Subtree index h f.mem ∧ h + gs.length ≤ H
  | f, [], hp, _ => ⟨H, hp.1 ▸ hwf, by simp⟩
  | f, g :: gs, hp, hgs => by
    obtain ⟨hg, hsg, hle⟩ := PathOk.subtree hwf hp.2.2 fun g' hg' => hgs g' (by simp [hg'])
    have hleaf : (pager.page g.mem).pageType.isLeaf = false :=
      hp.2.2.frameOk.2.2 ▸ hgs g (by simp)
    obtain ⟨hg, rfl⟩ : ∃ h', hg = h' + 1 := ⟨hg - 1, by have := hsg.pos; omega⟩
    refine ⟨hg, hp.2.1.2 ▸ (hsg.child hleaf g.idxCell).1, ?_⟩
    simp only [List.length_cons]
    omega

/-- The current page of a cursor on a path roots a subtree, of height at most the tree's
less the frames above it. -/
theorem OnPath.subtree {H : ℕ} {s : BtreeCursor} (hwf : pager.Subtree index H root)
    (hs : OnPath pager root s) :
    ∃ h, pager.Subtree index h s.currentPage.mem ∧ h + s.parentPages.length ≤ H :=
  hs.1.subtree hwf hs.2

/-! ### What is left to yield -/

/-- A frame at one of its cells has that cell, on an index, and what follows it still to come. -/
theorem pending_of_lt {F : ℕ} {f : CursorPage} (h : f.idxCell < (pager.page f.mem).nCells) :
    pending pager index F f =
      (if index then [(pager.page f.mem).cells.get ⟨f.idxCell, h⟩] else []) ++
        pager.contentsFrom index F (pager.page f.mem) (f.idxCell + 1) := by
  simp [pending, h]

/-- A frame at or past its right child has nothing more to come. -/
theorem pending_of_le {F : ℕ} {f : CursorPage} (h : (pager.page f.mem).nCells ≤ f.idxCell) :
    pending pager index F f = [] := by
  simp [pending, Nat.not_lt.mpr h]

/-- From the selected child on, a page holds that child and then its `pending` cells. -/
theorem contentsFrom_eq_pending {F : ℕ} {f : CursorPage}
    (h : f.idxCell ≤ (pager.page f.mem).nCells) :
    pager.contentsFrom index F (pager.page f.mem) f.idxCell =
      pager.cellsInOrder index F ((pager.page f.mem).childPageId f.idxCell) ++
        pending pager index F f := by
  rcases Nat.lt_or_eq_of_le h with hlt | heq
  · rw [Pager.contentsFrom_of_lt hlt, pending_of_lt hlt]
  · rw [heq, Pager.contentsFrom_nCells, BtreePage.childPageId_of_le le_rfl,
      pending_of_le heq.ge, List.append_nil]

/-- Nothing is left on a page once `idx_cell` is past its last cell. -/
theorem remaining_of_le {F : ℕ} {s : BtreeCursor}
    (h : (pager.page s.currentPage.mem).nCells ≤ s.currentPage.idxCell) :
    remaining pager index F s = s.parentPages.flatMap (pending pager index F) := by
  unfold remaining
  split
  · rw [List.drop_eq_nil_of_le h, List.nil_append]
  · rw [pending_of_le h, List.nil_append]

/-! ### Descending to the left-most leaf -/

variable (pager root index) in
/-- `s'` is `s` after a descent to a leaf, on one of its cells, with `rest` left to
yield. -/
structure LandsOn (F : ℕ) (s s' : BtreeCursor) (rest : List Cell) : Prop where
  onPath : OnPath pager root s'
  initialized : s'.initialized = s.initialized
  leaf : s'.currentPage.isLeaf
  onCell : s'.currentPage.idxCell < s'.currentPage.nCells
  remaining : remaining pager index F s' = rest

/-- A descent that lands on a cell of a leaf leaves an initialized cursor positioned. -/
theorem LandsOn.positioned {F : ℕ} {s s' : BtreeCursor} {rest : List Cell}
    (hd : LandsOn pager root index F s s' rest) (hi : s.initialized) :
    Positioned pager root index s' :=
  ⟨hd.onPath, hd.initialized ▸ hi, .inl ⟨hd.onCell, .inl hd.leaf⟩⟩

/-- Pushing the child selected by an interior frame keeps the path. -/
theorem OnPath.push {s : BtreeCursor} (hs : OnPath pager root s)
    (hl : s.currentPage.isLeaf = false) (hi : s.currentPage.idxCell ≤ s.currentPage.nCells) :
    OnPath pager root
      (s.push pager ((pager.page s.currentPage.mem).childPageId s.currentPage.idxCell)) := by
  refine ⟨⟨frameOk_new pager _, ⟨hi, rfl⟩, hs.1⟩, ?_⟩
  simp only [BtreeCursor.push, List.mem_cons, forall_eq_or_imp]
  exact ⟨hl, hs.2⟩

/-- **The descent lemma.** From a fresh frame on a non-empty well-formed subtree, the
loop of `move_to_left_most` reaches a leaf, and what the cursor yields is that subtree
followed by what the parents yield. -/
theorem descendLeftMost_spec {F : ℕ} :
    ∀ (fuel : ℕ) {h : ℕ} {pid : PageId} {s : BtreeCursor}, pager.Subtree index h pid →
      (pager.page pid).cells ≠ [] → h ≤ fuel → h ≤ F →
      s.currentPage = CursorPage.new pager pid → OnPath pager root s →
      ∃ s', descendLeftMost pager fuel s = .ok () s' ∧
        LandsOn pager root index F s s'
          (pager.cellsInOrder index F pid ++ s.parentPages.flatMap (pending pager index F))
  | _, 0, _, _, hsub, _, _, _, _, _ => hsub.elim
  | 0, _ + 1, _, _, _, _, hfuel, _, _, _ => absurd hfuel (by omega)
  | fuel + 1, h + 1, pid, s, hsub, hne, hfuel, hF, hcur, hs => by
    have hpos : 0 < (pager.page pid).nCells := List.length_pos.mpr hne
    rcases hl : (pager.page pid).pageType.isLeaf with _ | _
    · -- an interior page: push the left child of cell 0 and descend from it
      have hl' : s.currentPage.isLeaf = false := by rw [hcur]; exact hl
      have hchild := hsub.child hl 0
      have h0 : (pager.page s.currentPage.mem).interiorCellPageId 0 =
          some ((pager.page pid).childPageId 0) := by
        rw [hcur]; exact BtreePage.interiorCellPageId_of_lt hpos
      have hpush : OnPath pager root (s.push pager ((pager.page pid).childPageId 0)) := by
        have := hs.push hl' (by rw [hcur]; exact Nat.zero_le _)
        rw [hcur] at this
        exact this
      obtain ⟨s', hrun, hd⟩ := descendLeftMost_spec (F := F) fuel hchild.1 hchild.2
        (by omega) (by omega) rfl hpush
      refine ⟨s', ?_, ⟨hd.onPath, hd.initialized, hd.leaf, hd.onCell, ?_⟩⟩
      · rw [descendLeftMost_succ_of_child hl' h0 hchild.1.valid]
        exact hrun
      · have hc : pager.contentsFrom index F (pager.page pid) 0 =
            pager.cellsInOrder index F ((pager.page pid).childPageId 0) ++
              pending pager index F (CursorPage.new pager pid) :=
          contentsFrom_eq_pending (f := CursorPage.new pager pid) (Nat.zero_le _)
        rw [hd.remaining, Pager.cellsInOrder_eq_contentsFrom hsub hl (by omega), hc]
        simp [BtreeCursor.push, hcur]
    · -- a leaf: nothing to do
      refine ⟨s, descendLeftMost_succ_of_isLeaf (by rw [hcur]; exact hl),
        ⟨hs, rfl, by rw [hcur]; exact hl, by rw [hcur]; exact hpos, ?_⟩⟩
      rw [remaining, hcur, Pager.cellsInOrder_of_isLeaf hl (by omega)]
      simp [CursorPage.new, hl]

/-- Moving the innermost frame to another cell keeps the path. -/
theorem PathOk.setIdx {f : CursorPage} {gs : List CursorPage} (hp : PathOk pager root f gs)
    (i : ℕ) : PathOk pager root { f with idxCell := i } gs := by
  cases gs with
  | nil => exact hp
  | cons g gs => exact ⟨hp.1, hp.2.1, hp.2.2⟩

/-- So it keeps the cursor on a path. -/
theorem OnPath.setIdxCell {s : BtreeCursor} (hs : OnPath pager root s) (i : ℕ) :
    OnPath pager root (s.setIdxCell i) :=
  ⟨hs.1.setIdx i, hs.2⟩

/-- Stepping to the next cell keeps the cursor on a path. -/
theorem OnPath.incIdxCell {s : BtreeCursor} (hs : OnPath pager root s) :
    OnPath pager root s.incIdxCell :=
  hs.setIdxCell _

@[simp] theorem remaining_setInitialized {F : ℕ} (s : BtreeCursor) :
    remaining pager index F s.setInitialized = remaining pager index F s := rfl

/-- On a leaf, the cursor at cell `i` yields the leaf's cells from `i` on, then what the
parents yield. -/
theorem remaining_setIdxCell_of_leaf {F : ℕ} {s : BtreeCursor} (hl : s.currentPage.isLeaf)
    (i : ℕ) : remaining pager index F (s.setIdxCell i) =
      (pager.page s.currentPage.mem).cells.drop i ++
        s.parentPages.flatMap (pending pager index F) := by
  simp [remaining, hl]

/-- `move_to_left_most` from an interior frame at or before its right child: the
descent into the selected child, after which the cursor yields the page from that child
on, then the parents. -/
theorem moveToLeftMost_spec {H F fuel : ℕ} {s : BtreeCursor} (hwf : pager.Subtree index H root)
    (hs : OnPath pager root s) (hl : s.currentPage.isLeaf = false)
    (hi : s.currentPage.idxCell ≤ s.currentPage.nCells) (hfuel : H ≤ fuel) (hF : H ≤ F) :
    ∃ s', moveToLeftMost pager fuel s = .ok true s' ∧
      LandsOn pager root index F s s'
        (pager.contentsFrom index F (pager.page s.currentPage.mem) s.currentPage.idxCell ++
          s.parentPages.flatMap (pending pager index F)) := by
  obtain ⟨h, hsub, hle⟩ := hs.subtree hwf
  have hfr := hs.1.frameOk
  have hpl : (pager.page s.currentPage.mem).pageType.isLeaf = false := hfr.2.2 ▸ hl
  obtain ⟨h, rfl⟩ : ∃ h', h = h' + 1 := ⟨h - 1, by have := hsub.pos; omega⟩
  have hchild := hsub.child hpl s.currentPage.idxCell
  obtain ⟨s', hrun, hd⟩ := descendLeftMost_spec (F := F) fuel hchild.1 hchild.2
    (by omega) (by omega) rfl (hs.push hl hi)
  refine ⟨s', moveToLeftMost_of_le hl hi hfr.1 hchild.1.valid hrun,
    ⟨hd.onPath, hd.initialized, hd.leaf, hd.onCell, ?_⟩⟩
  rw [hd.remaining, contentsFrom_eq_pending (hfr.1 ▸ hi)]
  simp [BtreeCursor.push]

/-- **`move_to_first`.** From any state whose bottom frame is the root's, the cursor
ends positioned, with the whole tree left to yield. -/
theorem moveToFirst_spec {H F fuel : ℕ} {s : BtreeCursor} (hwf : pager.Subtree index H root)
    (hr : RootOk pager root s) (hfuel : H ≤ fuel) (hF : H ≤ F) :
    ∃ s', moveToFirst pager fuel s = .ok () s' ∧ Positioned pager root index s' ∧
      remaining pager index F s' = pager.cellsInOrder index F root := by
  have hon : OnPath pager root s.rootAtFirst := ⟨⟨hr.1, hr.2⟩, by simp [BtreeCursor.rootAtFirst]⟩
  have hH := hwf.pos
  rcases hl : s.bottom.isLeaf with _ | _
  · obtain ⟨s', hrun, hd⟩ := moveToLeftMost_spec (F := F) hwf hon hl (Nat.zero_le _) hfuel hF
    refine ⟨s'.setInitialized, moveToFirst_of_moveToLeftMost hl hrun,
      ⟨hd.onPath, rfl, .inl ⟨hd.onCell, .inl hd.leaf⟩⟩, ?_⟩
    obtain ⟨H, rfl⟩ : ∃ H', H = H' + 1 := ⟨H - 1, by omega⟩
    have hpl : (pager.page root).pageType.isLeaf = false := hr.1 ▸ hr.2.2.2 ▸ hl
    rw [remaining_setInitialized, hd.remaining,
      Pager.cellsInOrder_eq_contentsFrom hwf hpl (by omega)]
    simp [BtreeCursor.rootAtFirst, hr.1]
  · refine ⟨_, moveToFirst_of_isLeaf hl, ⟨hon, rfl, ?_⟩, ?_⟩
    · rcases Nat.eq_zero_or_pos s.bottom.nCells with h0 | h0
      · exact .inr ⟨rfl, by simp [BtreeCursor.rootAtFirst, h0]⟩
      · exact .inl ⟨by simpa [BtreeCursor.rootAtFirst] using h0, .inl hl⟩
    · have hpl : (pager.page root).pageType.isLeaf := hr.1 ▸ hr.2.2.2 ▸ hl
      simp [remaining, BtreeCursor.rootAtFirst, hl, hr.1,
        Pager.cellsInOrder_of_isLeaf hpl (show 0 < F by omega)]

/-! ### Climbing -/

/-- Popping a frame keeps the cursor on a path, and the parent selected the frame left. -/
theorem OnPath.pop {s : BtreeCursor} {g : CursorPage} {gs : List CursorPage}
    (hs : OnPath pager root s) (h : s.parentPages = g :: gs) :
    OnPath pager root { s with currentPage := g, parentPages := gs } ∧
      Linked pager s.currentPage g ∧ g.isLeaf = false := by
  obtain ⟨hp, hl⟩ := hs
  rw [h] at hp hl
  exact ⟨⟨hp.2.2, fun g' hg' => hl g' (List.mem_cons_of_mem _ hg')⟩, hp.2.1, hl g (by simp)⟩

/-- The frames of a tree's path carry its kind. -/
theorem OnPath.pageType {H : ℕ} {s : BtreeCursor} (hwf : pager.Subtree index H root)
    (hs : OnPath pager root s) :
    s.currentPage.pageType.isTable = !index ∧ s.currentPage.pageType.isIndex = index := by
  obtain ⟨h, hsub, -⟩ := hs.subtree hwf
  rw [hs.1.frameOk.2.1]
  rcases hsub.pageType with ht | ht <;> simp [ht]

variable (index) in
/-- At the root past its last cell, the traversal has ended. -/
theorem positioned_of_exhausted {F : ℕ} {s : BtreeCursor} (hs : OnPath pager root s)
    (hi : s.initialized) (hp : s.parentPages = [])
    (he : (pager.page s.currentPage.mem).nCells ≤ s.currentPage.idxCell) :
    Positioned pager root index s ∧ remaining pager index F s = [] := by
  refine ⟨⟨hs, hi, .inr ⟨hp, hs.1.frameOk.1 ▸ he⟩⟩, ?_⟩
  rw [remaining_of_le he, hp, List.flatMap_nil]

/-- The climbing loop of `move_next` on a table: from a frame past its last cell, the
cursor moves to the first cell of what the parents still hold, or to the end. -/
theorem tableClimb_spec {H F fuel : ℕ} (hwf : pager.Subtree false H root) (hfuel : H ≤ fuel)
    (hF : H ≤ F) : ∀ {n : ℕ} {t : BtreeCursor}, OnPath pager root t → t.initialized →
      (pager.page t.currentPage.mem).nCells ≤ t.currentPage.idxCell →
      t.parentPages.length < n →
      ∃ t', tableClimb pager fuel n t = .ok () t' ∧ Positioned pager root false t' ∧
        remaining pager false F t' = t.parentPages.flatMap (pending pager false F)
  | 0, _, _, _, _, hn => absurd hn (Nat.not_lt_zero _)
  | n + 1, t, hs, hi, he, hn => by
    rcases hp : t.parentPages with _ | ⟨g, gs⟩
    · obtain ⟨ht', hr⟩ := positioned_of_exhausted false (F := F)
        (hs.setIdxCell (t.currentPage.idxCell + 1)) hi hp (by simp; omega)
      exact ⟨_, tableClimb_succ_nil hp, ht', hr⟩
    · obtain ⟨hu, hlk, hgl⟩ := hs.pop hp
      have hgf : FrameOk pager g := hu.1.frameOk
      have hgn := hgf.1
      rcases Nat.lt_or_ge g.idxCell g.nCells with hlt | hge
      · obtain ⟨s', hrun, hd⟩ := moveToLeftMost_spec (F := F) hwf (hu.setIdxCell (g.idxCell + 1))
          hgl (by simpa using hlt) hfuel hF
        refine ⟨s', tableClimb_succ_found hp hrun, hd.positioned hi, ?_⟩
        rw [hd.remaining, List.flatMap_cons, pending_of_lt (hgf.1 ▸ hlt)]
        simp
      · have heq : g.idxCell = g.nCells := le_antisymm hlk.1 hge
        obtain ⟨t', hrun, ht', hr⟩ := tableClimb_spec hwf hfuel hF
          (hu.setIdxCell (g.idxCell + 1)) hi (by simp; omega) (by simp [hp] at hn; simpa using hn)
        refine ⟨t', ?_, ht', ?_⟩
        · rw [tableClimb_succ_next hp (moveToLeftMost_of_gt hgl (by simp; omega))]
          exact hrun
        · rw [hr, List.flatMap_cons, pending_of_le (hgf.1 ▸ heq.ge)]
          rfl

/-- The climbing loop of `move_next` and `index_move_to`: from a frame at its right
child's end, the cursor moves to the next interior cell of the parents, or completes. -/
theorem indexClimb_spec {F : ℕ} : ∀ {n : ℕ} {t : BtreeCursor}, OnPath pager root t →
      t.currentPage.idxCell = (pager.page t.currentPage.mem).nCells →
      t.parentPages.length < n →
      ∃ t', indexClimb n t = .ok () t' ∧ t'.initialized = t.initialized ∧
        Positioned pager root true t'.setInitialized ∧
        remaining pager true F t' = t.parentPages.flatMap (pending pager true F) ∧
        (t'.currentPage.idxCell < t'.currentPage.nCells ∨ t'.Completed)
  | 0, _, _, _, hn => absurd hn (Nat.not_lt_zero _)
  | n + 1, t, hs, he, hn => by
    rcases hp : t.parentPages with _ | ⟨g, gs⟩
    · obtain ⟨ht', hr⟩ := positioned_of_exhausted true (F := F)
        (s := t.incIdxCell.setInitialized) hs.incIdxCell rfl hp (by simp; omega)
      refine ⟨_, indexClimb_succ_nil hp, rfl, ht', hr, .inr ⟨hp, .inl ?_⟩⟩
      simp [hs.1.frameOk.1, he]
    · obtain ⟨hu, hlk, hgl⟩ := hs.pop hp
      have hgf : FrameOk pager g := hu.1.frameOk
      by_cases heq : g.idxCell = g.nCells
      · obtain ⟨t', hrun, hinit, ht', hr, hend⟩ := indexClimb_spec (F := F) hu (hgf.1 ▸ heq)
          (by simp [hp] at hn; simpa using hn)
        refine ⟨t', (indexClimb_succ_right hp heq).trans hrun, hinit, ht', ?_, hend⟩
        rw [hr, List.flatMap_cons, pending_of_le (hgf.1 ▸ heq.ge)]
        rfl
      · have hlt : g.idxCell < g.nCells := lt_of_le_of_ne hlk.1 heq
        refine ⟨_, indexClimb_succ_stop hp heq, rfl, ⟨hu, rfl, .inl ⟨hlt, .inr rfl⟩⟩, ?_,
          .inl hlt⟩
        simp [remaining, hgl]

/-! ### One step of `move_next` -/

variable (index) in
/-- Within a leaf, stepping `idx_cell` drops the head of what is left. -/
theorem remaining_incIdxCell_of_leaf {F : ℕ} {s : BtreeCursor} (hl : s.currentPage.isLeaf)
    (hc : s.currentPage.idxCell < (pager.page s.currentPage.mem).nCells) :
    remaining pager index F s.incIdxCell = (remaining pager index F s).tail := by
  simp only [remaining, BtreeCursor.incIdxCell_eq, BtreeCursor.setIdxCell_currentPage,
    BtreeCursor.setIdxCell_parentPages, hl, if_true, List.drop_eq_getElem_cons hc]
  rfl

/-- On a table, a positioned cursor at one of its cells is on a leaf. -/
theorem Positioned.isLeaf_of_table {s : BtreeCursor} (hs : Positioned pager root false s)
    (hc : s.currentPage.idxCell < s.currentPage.nCells) : s.currentPage.isLeaf := by
  rcases hs.position with ⟨_, h | h⟩ | ⟨_, h⟩
  · exact h
  · exact absurd h Bool.false_ne_true
  · omega

/-- **`move_next` on a table.** From a cell, the cursor moves to the next leaf cell of the
tree, or to the end. -/
theorem moveNext_table_spec {H F fuel : ℕ} {s : BtreeCursor} (hwf : pager.Subtree false H root)
    (hfuel : H ≤ fuel) (hF : H ≤ F) (hs : Positioned pager root false s)
    (hc : s.currentPage.idxCell < s.currentPage.nCells) :
    ∃ s', moveNext pager fuel s = .ok () s' ∧ Positioned pager root false s' ∧
      remaining pager false F s' = (remaining pager false F s).tail := by
  have hn := hs.onPath.1.frameOk.1
  have hl := hs.isLeaf_of_table hc
  have htail := remaining_incIdxCell_of_leaf false (F := F) hl (hn ▸ hc)
  rcases Nat.lt_or_ge (s.currentPage.idxCell + 1) s.currentPage.nCells with hlt | hge
  · refine ⟨_, moveNext_of_lt hs.initialized hl hlt, ⟨hs.onPath.incIdxCell, hs.initialized,
      .inl ⟨by simpa using hlt, .inl hl⟩⟩, htail⟩
  · obtain ⟨h, hsub, hle⟩ := hs.onPath.subtree hwf
    have hpos := hsub.pos
    obtain ⟨t', hrun, ht', hr⟩ := tableClimb_spec (n := fuel) hwf hfuel hF
      hs.onPath.incIdxCell hs.initialized (by simp; omega) (by simp; omega)
    refine ⟨t', ?_, ht', ?_⟩
    · rw [moveNext_table hs.initialized hl (by simp [(hs.onPath.pageType hwf).1]) (by omega)]
      exact hrun
    · rw [hr, ← htail, remaining_of_le (by simp; omega)]

/-- **`move_next` on an index.** From a cell, the cursor moves to the next cell of the
in-order sequence, leaf or interior, or completes. -/
theorem moveNext_index_spec {H F fuel : ℕ} {s : BtreeCursor} (hwf : pager.Subtree true H root)
    (hfuel : H ≤ fuel) (hF : H ≤ F) (hs : Positioned pager root true s)
    (hc : s.currentPage.idxCell < s.currentPage.nCells) :
    ∃ s', moveNext pager fuel s = .ok () s' ∧ Positioned pager root true s' ∧
      remaining pager true F s' = (remaining pager true F s).tail := by
  have hn := hs.onPath.1.frameOk.1
  obtain ⟨htab, hidx⟩ := hs.onPath.pageType hwf
  rcases hl : s.currentPage.isLeaf with _ | _
  · obtain ⟨s', hrun, hd⟩ := moveToLeftMost_spec (F := F) hwf hs.onPath.incIdxCell hl
      (by simp; omega) hfuel hF
    refine ⟨s', moveNext_index_interior hs.initialized hc hl htab (by simp [hidx]) hrun,
      hd.positioned hs.initialized, ?_⟩
    rw [hd.remaining]
    simp [remaining, hl, pending_of_lt (hn ▸ hc)]
  · have htail := remaining_incIdxCell_of_leaf true (F := F) hl (hn ▸ hc)
    rcases Nat.lt_or_ge (s.currentPage.idxCell + 1) s.currentPage.nCells with hlt | hge
    · refine ⟨_, moveNext_of_lt hs.initialized hl hlt, ⟨hs.onPath.incIdxCell,
        hs.initialized, .inl ⟨by simpa using hlt, .inl hl⟩⟩, htail⟩
    · obtain ⟨h, hsub, hle⟩ := hs.onPath.subtree hwf
      have hpos := hsub.pos
      obtain ⟨t', hrun, hinit, ht', hr, -⟩ := indexClimb_spec (F := F) (n := fuel)
        hs.onPath.incIdxCell (by simp; omega) (by simp; omega)
      rw [BtreeCursor.setInitialized_of_initialized (hinit.trans hs.initialized)] at ht'
      refine ⟨t', ?_, ht', ?_⟩
      · rw [moveNext_index_leaf hs.initialized hl htab (by simp [hidx]) (by omega)]
        exact hrun
      · rw [hr, ← htail, remaining_of_le (by simp; omega)]

/-! ### Reads -/

/-- On a cell, what is left starts with that cell. -/
theorem remaining_head? {F : ℕ} {s : BtreeCursor}
    (hc : s.currentPage.idxCell < (pager.page s.currentPage.mem).nCells)
    (hl : s.currentPage.isLeaf ∨ index) :
    (remaining pager index F s).head? =
      (pager.page s.currentPage.mem).cells[s.currentPage.idxCell]? := by
  have hc' : s.currentPage.idxCell < (pager.page s.currentPage.mem).cells.length := hc
  rw [List.getElem?_eq_getElem hc', remaining]
  split
  · rw [List.drop_eq_getElem_cons hc']
    rfl
  · rw [pending_of_lt hc, hl.resolve_left ‹_›]
    rfl

/-- At the end, back at the root, nothing is left. -/
theorem Positioned.remaining_eq_nil {F : ℕ} {s : BtreeCursor} (hs : Positioned pager root index s)
    (hc : s.currentPage.nCells ≤ s.currentPage.idxCell) : remaining pager index F s = [] := by
  rcases hs.position with ⟨h, -⟩ | ⟨hp, -⟩
  · omega
  · rw [remaining_of_le (hs.onPath.1.frameOk.1 ▸ hc), hp, List.flatMap_nil]

/-- **`get_table_payload`** reads the head of what is left. -/
theorem getTablePayload_eq {H F : ℕ} {s : BtreeCursor} (hwf : pager.Subtree false H root)
    (hs : Positioned pager root false s) :
    getTablePayload pager s =
      .ok ((remaining pager false F s).head?.map fun c => (c.key, c.payload)) := by
  have hn := hs.onPath.1.frameOk.1
  have htab := (hs.onPath.pageType hwf).1
  rcases Nat.lt_or_ge s.currentPage.idxCell s.currentPage.nCells with hc | hc
  · have hl := hs.isLeaf_of_table hc
    rw [remaining_head? (hn ▸ hc) (.inl hl)]
    simp [getTablePayload, hs.initialized, htab, hl, Nat.not_le.mpr hc, BtreePage.leafTableCell,
      List.getElem?_eq_getElem (show _ < (pager.page s.currentPage.mem).cells.length from hn ▸ hc)]
  · simp [getTablePayload, hs.initialized, htab, hc, hs.remaining_eq_nil hc]

/-- **`get_index_payload`** reads the head of what is left. -/
theorem getIndexPayload_eq {H F : ℕ} {s : BtreeCursor} (hwf : pager.Subtree true H root)
    (hs : Positioned pager root true s) :
    getIndexPayload pager s = .ok ((remaining pager true F s).head?.map Cell.payload) := by
  have hn := hs.onPath.1.frameOk.1
  have hidx := (hs.onPath.pageType hwf).2
  rcases Nat.lt_or_ge s.currentPage.idxCell s.currentPage.nCells with hc | hc
  · rw [remaining_head? (hn ▸ hc) (.inr rfl)]
    simp [getIndexPayload, hs.initialized, hidx, Nat.not_le.mpr hc, BtreePage.indexCellKey,
      List.getElem?_eq_getElem (show _ < (pager.page s.currentPage.mem).cells.length from hn ▸ hc)]
  · simp [getIndexPayload, hs.initialized, hidx, hc, hs.remaining_eq_nil hc]

/-! ### Whole traversals -/

variable (pager) in
/-- `k` successive calls of `move_next`. -/
def moveNextN (fuel : ℕ) : ℕ → CursorM Unit
  | 0 => pure ()
  | k + 1 => do
    moveNextN fuel k
    moveNext pager fuel

/-- One step more is `move_next` after the others. -/
theorem moveNextN_succ {fuel k : ℕ} {s s' : BtreeCursor}
    (h : moveNextN pager fuel k s = .ok () s') :
    moveNextN pager fuel (k + 1) s = moveNext pager fuel s' := by
  simp [moveNextN, h]

/-- The run lemma: if one `move_next` from a cell consumes the head of what is left, then
`k` of them, from a positioned state with at least `k` cells left, consume `k` cells. -/
theorem moveNextN_spec {F fuel : ℕ}
    (hstep : ∀ s, Positioned pager root index s →
      s.currentPage.idxCell < s.currentPage.nCells →
      ∃ s', moveNext pager fuel s = .ok () s' ∧ Positioned pager root index s' ∧
        remaining pager index F s' = (remaining pager index F s).tail)
    {s : BtreeCursor} (hs : Positioned pager root index s) :
    ∀ k ≤ (remaining pager index F s).length, ∃ s', moveNextN pager fuel k s = .ok () s' ∧
      Positioned pager root index s' ∧
      remaining pager index F s' = (remaining pager index F s).drop k
  | 0, _ => ⟨s, rfl, hs, rfl⟩
  | k + 1, hk => by
    obtain ⟨sk, hrun, hsk, hr⟩ := moveNextN_spec hstep hs k (by omega)
    have hc : sk.currentPage.idxCell < sk.currentPage.nCells := by
      by_contra hc
      have hnil := hsk.remaining_eq_nil (F := F) (Nat.not_lt.mp hc)
      rw [hr, List.drop_eq_nil_iff] at hnil
      omega
    obtain ⟨s', hrun', hs', hr'⟩ := hstep sk hsk hc
    exact ⟨s', (moveNextN_succ hrun).trans hrun', hs', by rw [hr', hr, List.tail_drop]⟩

/-- **Table traversal.** On a well-formed, ordered table tree, from any state whose root
frame is right (as every reachable state's is, `Reachable.rootOk`), `move_to_first` and
then `k` calls of `move_next` make `get_table_payload` return row `k` of the tree's leaf
cells in order, and `None` after the last; the keys of these rows strictly ascend. -/
theorem table_traversal {H fuel : ℕ} {s : BtreeCursor} (hwf : pager.Subtree false H root)
    (hord : pager.TableOrdered H root) (hr : RootOk pager root s) (hfuel : H ≤ fuel) :
    ((pager.cellsInOrder false H root).map Cell.key).Sorted (· < ·) ∧
      ∃ s₁, moveToFirst pager fuel s = .ok () s₁ ∧
        ∀ k ≤ (pager.cellsInOrder false H root).length, ∃ s', moveNextN pager fuel k s₁ = .ok () s' ∧
          getTablePayload pager s' =
            .ok ((pager.cellsInOrder false H root)[k]?.map fun c => (c.key, c.payload)) := by
  refine ⟨Pager.sorted_cellsInOrder hwf hord, ?_⟩
  obtain ⟨s₁, hrun, hs₁, hr₁⟩ := moveToFirst_spec (F := H) hwf hr hfuel le_rfl
  refine ⟨s₁, hrun, fun k hk => ?_⟩
  obtain ⟨s', hk', hs', hr'⟩ := moveNextN_spec
    (fun t ht hc => moveNext_table_spec hwf hfuel le_rfl ht hc) hs₁ k (hr₁ ▸ hk)
  refine ⟨s', hk', ?_⟩
  rw [getTablePayload_eq (F := H) hwf hs', hr', hr₁, List.head?_drop]

/-- The traversal of `twoLevelTable` from a fresh cursor. -/
theorem twoLevelTable_traversal :
    twoLevelTable.Subtree false 2 2 ∧ twoLevelTable.TableOrdered 2 2 ∧
    RootOk twoLevelTable 2 ⟨CursorPage.new twoLevelTable 2, [], false⟩ ∧
    (((twoLevelTable.cellsInOrder false 2 2).map Cell.key).Sorted (· < ·) ∧
      ∃ s₁, moveToFirst twoLevelTable 2 ⟨CursorPage.new twoLevelTable 2, [], false⟩ = .ok () s₁ ∧
        ∀ k ≤ (twoLevelTable.cellsInOrder false 2 2).length, ∃ s',
          moveNextN twoLevelTable 2 k s₁ = .ok () s' ∧
          getTablePayload twoLevelTable s' =
            .ok ((twoLevelTable.cellsInOrder false 2 2)[k]?.map fun c => (c.key, c.payload))) :=
  ⟨by decide, by decide, ⟨rfl, rfl, rfl, rfl⟩,
    table_traversal (by decide) (by decide) ⟨rfl, rfl, rfl, rfl⟩ le_rfl⟩

/-- **Index traversal.** On a well-formed index tree, from any state whose root frame is
right, `move_to_first` and then `k` calls of `move_next` make `get_index_payload` return
entry `k` of the tree's in-order sequence, interior cells included, and `None` after the
last. -/
theorem index_traversal {H fuel : ℕ} {s : BtreeCursor} (hwf : pager.Subtree true H root)
    (hr : RootOk pager root s) (hfuel : H ≤ fuel) :
    ∃ s₁, moveToFirst pager fuel s = .ok () s₁ ∧
      ∀ k ≤ (pager.cellsInOrder true H root).length, ∃ s', moveNextN pager fuel k s₁ = .ok () s' ∧
        getIndexPayload pager s' = .ok ((pager.cellsInOrder true H root)[k]?.map Cell.payload) := by
  obtain ⟨s₁, hrun, hs₁, hr₁⟩ := moveToFirst_spec (F := H) hwf hr hfuel le_rfl
  refine ⟨s₁, hrun, fun k hk => ?_⟩
  obtain ⟨s', hk', hs', hr'⟩ := moveNextN_spec
    (fun t ht hc => moveNext_index_spec hwf hfuel le_rfl ht hc) hs₁ k (hr₁ ▸ hk)
  refine ⟨s', hk', ?_⟩
  rw [getIndexPayload_eq (F := H) hwf hs', hr', hr₁, List.head?_drop]

/-- The traversal of `twoLevelIndex` from a fresh cursor. -/
theorem twoLevelIndex_traversal :
    twoLevelIndex.Subtree true 2 2 ∧
    RootOk twoLevelIndex 2 ⟨CursorPage.new twoLevelIndex 2, [], false⟩ ∧
    ∃ s₁, moveToFirst twoLevelIndex 2 ⟨CursorPage.new twoLevelIndex 2, [], false⟩ = .ok () s₁ ∧
      ∀ k ≤ (twoLevelIndex.cellsInOrder true 2 2).length, ∃ s',
        moveNextN twoLevelIndex 2 k s₁ = .ok () s' ∧
        getIndexPayload twoLevelIndex s' =
          .ok ((twoLevelIndex.cellsInOrder true 2 2)[k]?.map Cell.payload) :=
  ⟨by decide, ⟨rfl, rfl, rfl, rfl⟩, index_traversal (by decide) ⟨rfl, rfl, rfl, rfl⟩ le_rfl⟩

end Prsqlite