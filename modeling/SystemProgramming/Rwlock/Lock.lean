import Mathlib.Logic.Function.Basic
import Mathlib.Data.Int.Notation
import Mathlib.Tactic.Common

/-!
# `rwlock.c`: a reader-writer lock with a ring of tickets

Normal readers and writers draw a ticket and join a FIFO that is kept in a ring of
`WRITER_RING_SIZE` slots; quick readers pass it by.  A function is cut where it gives up `rw->lock`:
a `Section` is what runs from acquiring the mutex, or from waking up, to releasing it or waiting.
The first section of a call is the call itself (`rwlockReadLock` and so on); the later ones are runs
of its loop body (`quickBody`, `readBody`, `writeBody`).

The ring size and the increment of a ticket are parameters: `WRITER_RING_SIZE` is a positive constant
of a header, and `++` on a ticket is the successor as long as it does not overflow.
-/

namespace SystemProgramming.Rwlock

/-- `WRITER_RING_SIZE`, and `++` on a ticket. -/
structure Ring where
  size : ℕ
  pos : 0 < size
  succ : ℤ → ℤ

/-- A ring whose tickets do not overflow. -/
def Ring.plain (size : ℕ) (pos : 0 < size) : Ring := ⟨size, pos, fun n => n + 1⟩

/-- `req_type_t` -/
inductive ReqType where
  | none
  | read
  | write
  deriving DecidableEq

/-- `rwlock_t` and the `struct uctx` behind it. -/
structure Lock where
  currentReaders : ℤ
  currentWriters : ℤ
  nextElement : ℤ
  oldestElement : ℤ
  qrWaiters : ℤ
  readBatchEnd : ℤ
  requestType : ℤ → ReqType
  slotTable : ℤ → ℤ

variable (ring : Ring)

/-- `num % WRITER_RING_SIZE` -/
def slotIndex (num : ℤ) : ℤ := num.tmod ring.size

/-- The request type `-1` of the source is `none`: any type matches. -/
def slotMatches (u : Lock) (num : ℤ) (reqType : Option ReqType) : Bool :=
  match reqType with
  | none => u.slotTable (slotIndex ring num) = num
  | some r => u.slotTable (slotIndex ring num) = num ∧ u.requestType (slotIndex ring num) = r

def getRequestType (u : Lock) (num : ℤ) : ReqType := u.requestType (slotIndex ring num)

/-- Empty the slot of `num`; `false` when the slot holds another ticket. -/
def consumeEntry (u : Lock) (num : ℤ) : Bool × Lock :=
  if slotMatches ring u num none = false then (false, u)
  else
    (true, { u with slotTable := Function.update u.slotTable (slotIndex ring num) (-1)
                    requestType := Function.update u.requestType (slotIndex ring num) .none })

def joinFifo (u : Lock) (num : ℤ) (reqType : ReqType) : Bool × Lock :=
  let u := { u with nextElement := ring.succ u.nextElement
                    slotTable := Function.update u.slotTable (slotIndex ring num) num }
  match reqType with
  | .read =>
    (true, { u with requestType := Function.update u.requestType (slotIndex ring num) .read })
  | .write =>
    (true, { u with requestType := Function.update u.requestType (slotIndex ring num) .write })
  | .none => (false, u)

/-- The loop of `find_valid_head`, which can run at most as often as `head` is short of the end. -/
def skipHead (u : Lock) : ℕ → ℤ → ℤ
  | 0, head => head
  | fuel + 1, head =>
    if head < u.nextElement ∧ slotMatches ring u head none = false then skipHead u fuel (ring.succ head)
    else head

def findValidHead (u : Lock) (head : ℤ) : ℤ := skipHead ring u (u.nextElement - head).toNat head

/-- The loop that computes the end of a reader batch: the first ticket after `head` that is not a
reader in its slot, and the last one before it.  A ring holds no more tickets than it has slots. -/
def scanBatch (u : Lock) : ℕ → ℤ → ℤ → ℤ × ℤ
  | 0, head, batchEnd => (head, batchEnd)
  | fuel + 1, head, batchEnd =>
    if slotMatches ring u head (some .read) = true then scanBatch u fuel (ring.succ head) head
    else (head, batchEnd)

def Lock.init : Lock where
  currentReaders := 0
  currentWriters := 0
  nextElement := 0
  oldestElement := 0
  qrWaiters := 0
  readBatchEnd := -1
  requestType := fun _ => .none
  slotTable := fun _ => -1

/-! ### Sections -/

/-- How a section ends: the thread waits on the condition variable, returns with `rw->lock` released,
or returns and leaves `rw->lock` locked. -/
inductive Exit where
  | wait
  | ret (code : ℤ)
  | retLocked (code : ℤ)
  deriving DecidableEq

/-- What a section does: the lock it leaves, how it ends, and whether it broadcasts. -/
structure Section where
  lock : Lock
  exit : Exit
  broadcast : Bool

/-- The loop of a quick reader that waits, and what follows it. -/
def quickBody (u : Lock) : Section :=
  if u.currentWriters > 0 then ⟨u, .wait, false⟩
  else
    ⟨{ u with qrWaiters := u.qrWaiters - 1, currentReaders := u.currentReaders + 1 }, .ret 0, true⟩

/-- `rwlock_read_lock(rw, 1)` -/
def rwlockReadLockQuick (u : Lock) : Section :=
  if u.currentWriters = 0 then ⟨{ u with currentReaders := u.currentReaders + 1 }, .ret 0, false⟩
  else quickBody { u with qrWaiters := u.qrWaiters + 1 }

/-- `consume_entry` as the last thing before the return: the reader or writer has been counted. -/
def finishGrant (u : Lock) (myTurn : ℤ) (granted : Lock → Section) : Section :=
  let (consumed, u) := consumeEntry ring u myTurn
  if consumed = false then ⟨u, .ret (-1), false⟩ else granted u

/-- The loop body of a normal reader. -/
def readBody (u : Lock) (myTurn : ℤ) : Section :=
  if u.currentWriters > 0 then ⟨u, .wait, false⟩
  else if myTurn ≤ u.readBatchEnd ∧ u.currentWriters = 0 then
    -- a member of the batch
    finishGrant ring { u with currentReaders := u.currentReaders + 1 } myTurn
      fun u => ⟨u, .ret 0, false⟩
  else
    let head := findValidHead ring u u.oldestElement
    if head = u.nextElement then ⟨u, .wait, false⟩
    else
      let u := { u with oldestElement := head }
      if myTurn = head ∧ getRequestType ring u head = .read then
        -- the leader of a new batch
        let (head, batchEnd) := scanBatch ring u ring.size head myTurn
        finishGrant ring
          { u with readBatchEnd := batchEnd, oldestElement := head,
                   currentReaders := u.currentReaders + 1 } myTurn
          fun u => ⟨u, .ret 0, true⟩
      else ⟨u, .wait, false⟩

/-- `rwlock_read_lock(rw, 0)`.  Where joining fails the mutex is not released. -/
def rwlockReadLock (u : Lock) : Section :=
  let myTurn := u.nextElement
  let (joined, u) := joinFifo ring u myTurn .read
  if joined = false then ⟨u, .retLocked (-1), false⟩ else readBody ring u myTurn

/-- The loop body of a writer.  Where the FIFO turns out empty the mutex is not released. -/
def writeBody (u : Lock) (myTurn : ℤ) : Section :=
  if u.currentReaders > 0 ∨ u.currentWriters > 0 ∨ u.qrWaiters > 0 then ⟨u, .wait, false⟩
  else
    let u := { u with oldestElement := findValidHead ring u u.oldestElement }
    if u.oldestElement = u.nextElement then ⟨u, .retLocked (-1), false⟩
    else if myTurn = u.oldestElement ∧ slotMatches ring u myTurn (some .write) = true then
      finishGrant ring { u with currentWriters := 1 } myTurn fun u =>
        let u := { u with oldestElement := ring.succ u.oldestElement }
        ⟨{ u with oldestElement := findValidHead ring u u.oldestElement, readBatchEnd := -1 },
          .ret 0, false⟩
    else ⟨u, .wait, false⟩

/-- `rwlock_write_lock(rw)` -/
def rwlockWriteLock (u : Lock) : Section :=
  let myTurn := u.nextElement
  let (joined, u) := joinFifo ring u myTurn .write
  if joined = false then ⟨u, .ret (-1), false⟩ else writeBody ring u myTurn

/-- `rwlock_read_unlock(rw)` -/
def rwlockReadUnlock (u : Lock) : Section :=
  let u := { u with currentReaders := u.currentReaders - 1 }
  if u.currentReaders < 0 then ⟨u, .ret (-1), false⟩
  else if u.currentReaders > 0 then ⟨u, .ret 0, false⟩
  else ⟨{ u with readBatchEnd := -1 }, .ret 0, true⟩

/-- `rwlock_write_unlock(rw)` -/
def rwlockWriteUnlock (u : Lock) : Section :=
  let u := { u with currentWriters := u.currentWriters - 1, readBatchEnd := -1 }
  if u.currentWriters > 0 ∨ u.currentWriters < 0 then ⟨u, .ret (-1), true⟩ else ⟨u, .ret 0, true⟩

/-! ### The branches of the loop bodies -/

/-- The lock once the entry of `num` has been consumed. -/
def Lock.consumed (u : Lock) (num : ℤ) : Lock :=
  { u with slotTable := Function.update u.slotTable (slotIndex ring num) (-1)
           requestType := Function.update u.requestType (slotIndex ring num) .none }

/-- The lock after the leader `myTurn` at `head` has formed its batch and has been counted. -/
def Lock.lead (u : Lock) (head myTurn : ℤ) : Lock :=
  { u with readBatchEnd := (scanBatch ring u ring.size head myTurn).2
           oldestElement := (scanBatch ring u ring.size head myTurn).1
           currentReaders := u.currentReaders + 1 }

/-- The lock after a writer at the head has been granted it. -/
def Lock.pass (u : Lock) : Lock :=
  let u := { u with oldestElement := ring.succ u.oldestElement }
  { u with oldestElement := findValidHead ring u u.oldestElement, readBatchEnd := -1 }

variable {ring : Ring} {u : Lock} {myTurn : ℤ} {granted : Lock → Section}

theorem finishGrant_of_match (h : slotMatches ring u myTurn none = true) :
    finishGrant ring u myTurn granted = granted (u.consumed ring myTurn) := by
  simp only [finishGrant, consumeEntry, h, Bool.true_eq_false, if_false]
  rfl

theorem finishGrant_of_miss (h : slotMatches ring u myTurn none = false) :
    finishGrant ring u myTurn granted = ⟨u, .ret (-1), false⟩ := by
  simp only [finishGrant, consumeEntry, h, if_true]

/-- **The loop body of a normal reader**, branch by branch. -/
theorem readBody_cases (ring : Ring) (u : Lock) (myTurn : ℤ) :
    (u.currentWriters > 0 ∧ readBody ring u myTurn = ⟨u, .wait, false⟩) ∨
    (u.currentWriters = 0 ∧ myTurn ≤ u.readBatchEnd ∧ readBody ring u myTurn =
      finishGrant ring { u with currentReaders := u.currentReaders + 1 } myTurn
        fun u => ⟨u, .ret 0, false⟩) ∨
    (u.currentWriters ≤ 0 ∧ (u.currentWriters = 0 → u.readBatchEnd < myTurn) ∧
      ((findValidHead ring u u.oldestElement = u.nextElement ∧
          readBody ring u myTurn = ⟨u, .wait, false⟩) ∨
        (findValidHead ring u u.oldestElement ≠ u.nextElement ∧
          myTurn = findValidHead ring u u.oldestElement ∧
          getRequestType ring u myTurn = .read ∧
          readBody ring u myTurn = finishGrant ring
            (Lock.lead ring { u with oldestElement := myTurn } myTurn myTurn) myTurn
            fun u => ⟨u, .ret 0, true⟩) ∨
        (findValidHead ring u u.oldestElement ≠ u.nextElement ∧
          ¬ (myTurn = findValidHead ring u u.oldestElement ∧
            getRequestType ring u myTurn = .read) ∧
          readBody ring u myTurn =
            ⟨{ u with oldestElement := findValidHead ring u u.oldestElement }, .wait, false⟩))) := by
  by_cases hw : u.currentWriters > 0
  · refine Or.inl ⟨hw, ?_⟩
    rw [readBody, if_pos hw]
  · have hw' : u.currentWriters ≤ 0 := Int.not_lt.mp hw
    by_cases hb : myTurn ≤ u.readBatchEnd ∧ u.currentWriters = 0
    · refine Or.inr (Or.inl ⟨hb.2, hb.1, ?_⟩)
      rw [readBody, if_neg hw, if_pos hb]
    · have hout : u.currentWriters = 0 → u.readBatchEnd < myTurn := fun h0 =>
        Int.not_le.mp fun hle => hb ⟨hle, h0⟩
      refine Or.inr (Or.inr ⟨hw', hout, ?_⟩)
      by_cases hh : findValidHead ring u u.oldestElement = u.nextElement
      · refine Or.inl ⟨hh, ?_⟩
        simp only [readBody, if_neg hw, if_neg hb, if_pos hh]
      · by_cases hl : myTurn = findValidHead ring u u.oldestElement ∧
            getRequestType ring u myTurn = .read
        · refine Or.inr (Or.inl ⟨hh, hl.1, hl.2, ?_⟩)
          have hl' : myTurn = findValidHead ring u u.oldestElement ∧
              getRequestType ring { u with oldestElement := findValidHead ring u u.oldestElement }
                (findValidHead ring u u.oldestElement) = .read := ⟨hl.1, hl.1 ▸ hl.2⟩
          simp only [readBody, if_neg hw, if_neg hb, if_neg hh, if_pos hl']
          rw [← hl.1]
          rfl
        · refine Or.inr (Or.inr ⟨hh, hl, ?_⟩)
          have hl' : ¬ (myTurn = findValidHead ring u u.oldestElement ∧
              getRequestType ring { u with oldestElement := findValidHead ring u u.oldestElement }
                (findValidHead ring u u.oldestElement) = .read) := by
            rintro ⟨heq, htype⟩
            exact hl ⟨heq, heq ▸ htype⟩
          simp only [readBody, if_neg hw, if_neg hb, if_neg hh, if_neg hl']

/-- **The loop body of a writer**, branch by branch. -/
theorem writeBody_cases (ring : Ring) (u : Lock) (myTurn : ℤ) :
    ((u.currentReaders > 0 ∨ u.currentWriters > 0 ∨ u.qrWaiters > 0) ∧
      writeBody ring u myTurn = ⟨u, .wait, false⟩) ∨
    (u.currentReaders ≤ 0 ∧ u.currentWriters ≤ 0 ∧ u.qrWaiters ≤ 0 ∧
      ((findValidHead ring u u.oldestElement = u.nextElement ∧ writeBody ring u myTurn =
          ⟨{ u with oldestElement := findValidHead ring u u.oldestElement }, .retLocked (-1), false⟩) ∨
        (findValidHead ring u u.oldestElement ≠ u.nextElement ∧
          myTurn = findValidHead ring u u.oldestElement ∧
          slotMatches ring u myTurn (some .write) = true ∧ writeBody ring u myTurn =
            finishGrant ring { u with oldestElement := myTurn, currentWriters := 1 } myTurn
              fun u => ⟨u.pass ring, .ret 0, false⟩) ∨
        (findValidHead ring u u.oldestElement ≠ u.nextElement ∧
          ¬ (myTurn = findValidHead ring u u.oldestElement ∧
            slotMatches ring u myTurn (some .write) = true) ∧ writeBody ring u myTurn =
            ⟨{ u with oldestElement := findValidHead ring u u.oldestElement }, .wait, false⟩))) := by
  by_cases hbusy : u.currentReaders > 0 ∨ u.currentWriters > 0 ∨ u.qrWaiters > 0
  · refine Or.inl ⟨hbusy, ?_⟩
    rw [writeBody, if_pos hbusy]
  · refine Or.inr ⟨by omega, by omega, by omega, ?_⟩
    by_cases hh : findValidHead ring u u.oldestElement = u.nextElement
    · refine Or.inl ⟨hh, ?_⟩
      simp only [writeBody, if_neg hbusy, if_pos hh]
    · by_cases hg : myTurn = findValidHead ring u u.oldestElement ∧
          slotMatches ring u myTurn (some .write) = true
      · refine Or.inr (Or.inl ⟨hh, hg.1, hg.2, ?_⟩)
        have hg' : myTurn = findValidHead ring u u.oldestElement ∧
            slotMatches ring { u with oldestElement := findValidHead ring u u.oldestElement } myTurn
              (some .write) = true := hg
        simp only [writeBody, if_neg hbusy, if_neg hh, if_pos hg']
        rw [← hg.1]
        rfl
      · refine Or.inr (Or.inr ⟨hh, hg, ?_⟩)
        have hg' : ¬ (myTurn = findValidHead ring u u.oldestElement ∧
            slotMatches ring { u with oldestElement := findValidHead ring u u.oldestElement } myTurn
              (some .write) = true) := hg
        simp only [writeBody, if_neg hbusy, if_neg hh, if_neg hg']

end SystemProgramming.Rwlock
