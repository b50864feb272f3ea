import Mathlib.Logic.Function.Basic
import Mathlib.Tactic.Common

/-!
# The reader-writer latch

`ReaderWriterLatch` (`common/rwlatch.cpp`) and the threads that use it.  A thread runs alone while it
has the mutex, so the part of a call from taking the mutex to giving it up, by returning or by
waiting on a condition variable, is one step.  A thread that waits may take the mutex again and look
at its loop condition at any time: condition variables wake up threads spuriously, so which of them
`notify_one` and `notify_all` wake up changes nothing here.
-/

namespace Rucbase

/-- The fields of `ReaderWriterLatch` behind the mutex. -/
structure ReaderWriterLatch where
  readerCount : UInt32
  writerEntered : Bool
deriving DecidableEq, Repr

namespace ReaderWriterLatch

/-- `MAX_READERS`, that is `UINT_MAX`. -/
def maxReaders : UInt32 := 4294967295

/-- Where a thread is with respect to the latch. -/
inductive Phase where
  /-- In none of the calls. -/
  | outside
  /-- In `WLock`, waiting on `reader_` for the other writer to leave. -/
  | wLockReader
  /-- In `WLock`, waiting on `writer_` for the readers to leave. -/
  | wLockWriter
  /-- In `RLock`, waiting on `reader_`. -/
  | rLock
deriving DecidableEq, Repr

/-- A thread: where it is, how many calls of `RLock` have returned and are not undone by `RUnlock`,
and the same for `WLock`. -/
structure Thread where
  phase : Phase
  reads : Nat
  writes : Bool
deriving DecidableEq, Repr

/-- The second loop of `WLock`. -/
def wLockSecond (l : ReaderWriterLatch) (th : Thread) : ReaderWriterLatch × Thread :=
  if l.readerCount > 0 then (l, { th with phase := .wLockWriter })
  else (l, { th with phase := .outside, writes := true })

/-- The first loop of `WLock`, and what follows it. -/
def wLock (l : ReaderWriterLatch) (th : Thread) : ReaderWriterLatch × Thread :=
  if l.writerEntered then (l, { th with phase := .wLockReader })
  else wLockSecond { l with writerEntered := true } th

/-- `WUnlock`. -/
def wUnlock (l : ReaderWriterLatch) (th : Thread) : ReaderWriterLatch × Thread :=
  ({ l with writerEntered := false }, { th with writes := false })

/-- The loop of `RLock`, and what follows it. -/
def rLock (l : ReaderWriterLatch) (th : Thread) : ReaderWriterLatch × Thread :=
  if l.writerEntered ∨ l.readerCount = maxReaders then (l, { th with phase := .rLock })
  else ({ l with readerCount := l.readerCount + 1 },
    { th with phase := .outside, reads := th.reads + 1 })

/-- `RUnlock`. -/
def rUnlock (l : ReaderWriterLatch) (th : Thread) : ReaderWriterLatch × Thread :=
  ({ l with readerCount := l.readerCount - 1 }, { th with reads := th.reads - 1 })

/-- What a thread can do next: make a call, or wake up inside of one. -/
inductive Action where
  | wLock
  | wUnlock
  | rLock
  | rUnlock
  | wake
deriving DecidableEq, Repr

/-- One step of a thread.  It unlocks only what it has locked. -/
def act (l : ReaderWriterLatch) (th : Thread) :
    Action → Option (ReaderWriterLatch × Thread)
  | .wLock => if th.phase = .outside then some (l.wLock th) else none
  | .rLock => if th.phase = .outside then some (l.rLock th) else none
  | .wUnlock => if th.phase = .outside ∧ th.writes then some (l.wUnlock th) else none
  | .rUnlock => if th.phase = .outside ∧ 0 < th.reads then some (l.rUnlock th) else none
  | .wake =>
    match th.phase with
    | .outside => none
    | .wLockReader => some (l.wLock th)
    | .wLockWriter => some (l.wLockSecond th)
    | .rLock => some (l.rLock th)

/-- A latch and the threads that use it. -/
structure System (ι : Type) where
  latch : ReaderWriterLatch
  threads : ι → Thread

namespace System

variable {ι : Type} [DecidableEq ι]

/-- A new latch. -/
def init : System ι where
  latch := ⟨0, false⟩
  threads := fun _ => ⟨.outside, 0, false⟩

/-- A step of one of the threads. -/
def step (s : System ι) (t : ι) (a : Action) : Option (System ι) :=
  (s.latch.act (s.threads t) a).map fun r => ⟨r.1, Function.update s.threads t r.2⟩

end System

end ReaderWriterLatch

end Rucbase
