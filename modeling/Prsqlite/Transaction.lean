import Mathlib.Data.List.Basic

/-!
# Transaction Guards

A `Connection` counts its running statements in `ref_count`: `start_read` increments it
from any value `≥ 0`, `start_write` sets it to `-1` from `0`, and the guards they return
undo this when dropped, a `ReadTransaction` by decrementing it and a `WriteTransaction`
(also at the end of `commit`, which consumes it) by resetting it to `0`.

The users of a connection start transactions and end the ones they hold, in any order.
`Txns` is the counter together with the guards alive, `Txns.step` one such event, and
`TxnReachable` every state a run from a fresh connection reaches. `Txns.Inv` is what the
counter means: the number of live readers, or `-1` under a lone writer.

## Main results

* `Txns.step_inv`: every event keeps `Txns.Inv`.
* `transaction_guards`: in every reachable state the counter is right, a writer runs
  alone, `start_read` succeeds iff no writer is live and `start_write` iff no guard is.

`ref_count` is an `i64`; it is modelled in `ℤ`, since it only overflows past `2 ^ 63`
live readers, more guards than an address space holds.
-/

namespace Prsqlite

/-! ### The counter -/

namespace Connection

/-- `Connection::start_read`: a read starts unless a write is running. -/
def startRead (refCount : ℤ) : Except String ℤ :=
  if 0 ≤ refCount then .ok (refCount + 1) else .error "write statment running"

/-- `Connection::start_write`: a write starts only when nothing is running. -/
def startWrite (refCount : ℤ) : Except String ℤ :=
  if refCount = 0 then .ok (-1) else .error "other statments running"

end Connection

/-- `Drop for ReadTransaction`. -/
def ReadTransaction.drop (refCount : ℤ) : ℤ := refCount - 1

/-- `Drop for WriteTransaction`, which also ends `WriteTransaction::commit` whether the
pager's commit succeeds or fails. -/
def WriteTransaction.drop (_refCount : ℤ) : ℤ := 0

/-! ### Runs -/

/-- What the users of a connection do: start a transaction, or end one they hold. -/
inductive TxnEvent
  | startRead
  | startWrite
  | dropRead
  | commit
  | dropWrite
  deriving DecidableEq, Repr

/-- The counter of a connection, with the `reads` read guards and `writes` write guards
alive. -/
structure Txns where
  refCount : ℤ
  reads : ℕ
  writes : ℕ
  deriving DecidableEq, Repr

/-- One event; ending a guard is possible only while one is alive. A failed start leaves
everything as it was. -/
def Txns.step (t : Txns) : TxnEvent → Option Txns
  | .startRead => some <| match Connection.startRead t.refCount with
    | .ok refCount => { t with refCount, reads := t.reads + 1 }
    | .error _ => t
  | .startWrite => some <| match Connection.startWrite t.refCount with
    | .ok refCount => { t with refCount, writes := t.writes + 1 }
    | .error _ => t
  | .dropRead => if 0 < t.reads then
      some { t with refCount := ReadTransaction.drop t.refCount, reads := t.reads - 1 }
    else none
  | .commit | .dropWrite => if 0 < t.writes then
      some { t with refCount := WriteTransaction.drop t.refCount, writes := t.writes - 1 }
    else none

/-- The states reached from a fresh connection by any sequence of events. -/
inductive TxnReachable : Txns → Prop
  | init : TxnReachable ⟨0, 0, 0⟩
  | step {t t' : Txns} (e : TxnEvent) : TxnReachable t → t.step e = some t' → TxnReachable t'

/-- The counter is the number of readers, or `-1` under a lone writer. -/
def Txns.Inv (t : Txns) : Prop :=
  t.writes = 0 ∧ t.refCount = t.reads ∨ t.writes = 1 ∧ t.reads = 0 ∧ t.refCount = -1

/-- **The step lemma.** -/
theorem Txns.step_inv {t t' : Txns} {e : TxnEvent} (hi : t.Inv) (hs : t.step e = some t') :
    t'.Inv := by
  unfold Inv at hi ⊢
  cases e <;> simp only [step] at hs
  · obtain rfl := Option.some.inj hs
    by_cases h : 0 ≤ t.refCount <;> simp [Connection.startRead, h] <;> omega
  · obtain rfl := Option.some.inj hs
    by_cases h : t.refCount = 0 <;> simp [Connection.startWrite, h] <;> omega
  all_goals
    split at hs
    · obtain rfl := Option.some.inj hs
      simp only [ReadTransaction.drop, WriteTransaction.drop]
      omega
    · cases hs

/-- Every reachable state of the guards satisfies the invariant, by induction on the events. -/
theorem TxnReachable.inv {t : Txns} (h : TxnReachable t) : t.Inv := by
  induction h with
  | init => exact .inl ⟨rfl, rfl⟩
  | step _ _ hs ih => exact Txns.step_inv ih hs

/-- Under the invariant, `start_read` succeeds iff no writer is live. -/
theorem Txns.Inv.startRead_isOk {t : Txns} (hi : t.Inv) :
    (Connection.startRead t.refCount).isOk ↔ t.writes = 0 := by
  unfold Connection.startRead
  rcases hi with ⟨hw, hr⟩ | ⟨hw, -, hr⟩ <;> rw [hr] <;> split <;> simp [Except.toBool, hw] <;>
    omega

/-- Under the invariant, `start_write` succeeds iff no guard is live. -/
theorem Txns.Inv.startWrite_isOk {t : Txns} (hi : t.Inv) :
    (Connection.startWrite t.refCount).isOk ↔ t.reads = 0 ∧ t.writes = 0 := by
  unfold Connection.startWrite
  rcases hi with ⟨hw, hr⟩ | ⟨hw, hr', hr⟩ <;> rw [hr] <;> split <;> simp [Except.toBool, hw] <;>
    omega

/-- **Transaction guards.** Over any interleaving of starts and ends of transactions on a
fresh connection, `ref_count` is the number of live readers while no writer is live and
`-1` while one is, a writer is alone, `start_read` succeeds iff no writer is live, and
`start_write` iff no guard is. -/
theorem transaction_guards {t : Txns} (h : TxnReachable t) :
    (t.writes = 0 → t.refCount = t.reads) ∧
    (0 < t.writes → t.refCount = -1 ∧ t.writes = 1 ∧ t.reads = 0) ∧
    ((Connection.startRead t.refCount).isOk ↔ t.writes = 0) ∧
    ((Connection.startWrite t.refCount).isOk ↔ t.reads = 0 ∧ t.writes = 0) := by
  have hi := h.inv
  refine ⟨fun hw => ?_, fun hw => ?_, hi.startRead_isOk, hi.startWrite_isOk⟩
  · rcases hi with ⟨-, hr⟩ | ⟨hw', -⟩
    exacts [hr, absurd hw (by omega)]
  · rcases hi with ⟨hw', -⟩ | ⟨hw', hr, hc⟩
    exacts [absurd hw (by omega), ⟨hc, hw', hr⟩]

/-- After one `start_read` on a fresh connection. -/
theorem transaction_guards_one_reader :
    TxnReachable ⟨1, 1, 0⟩ ∧
    ((0 = 0 → (1 : ℤ) = (1 : ℕ)) ∧ (0 < 0 → (1 : ℤ) = -1 ∧ 0 = 1 ∧ 1 = 0) ∧
      ((Connection.startRead 1).isOk ↔ 0 = 0) ∧
      ((Connection.startWrite 1).isOk ↔ 1 = 0 ∧ 0 = 0)) :=
  have h : TxnReachable ⟨1, 1, 0⟩ := .step .startRead .init rfl
  ⟨h, transaction_guards h⟩

end Prsqlite
