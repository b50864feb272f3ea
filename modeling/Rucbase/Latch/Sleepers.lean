import Rucbase.Latch.ReaderWriterLatch

/-!
# The condition variables of the latch

`ReaderWriterLatch` with its two condition variables.  A thread that waits is asleep until it is
notified, and only then takes the mutex again.  `WUnlock` notifies all threads that wait on
`reader_`; `RUnlock` notifies one, on `writer_` when the last reader has left and a writer waits for
that, and on `reader_` when the count has just left `MAX_READERS`.
-/

namespace Rucbase.ReaderWriterLatch

/-- The condition variables. -/
inductive CondVar where
  | reader
  | writer
deriving DecidableEq, Repr

/-- What a thread waits on. -/
def Phase.condVar : Phase → Option CondVar
  | .outside => none
  | .wLockReader | .rLock => some .reader
  | .wLockWriter => some .writer

/-- A call of `notify_one` or `notify_all`. -/
inductive Notification where
  | one (c : CondVar)
  | all (c : CondVar)
deriving DecidableEq, Repr

/-- What a step notifies, by the latch after it. -/
def notification (l : ReaderWriterLatch) : Action → Option Notification
  | .wUnlock => some (.all .reader)
  | .rUnlock =>
    if l.writerEntered then
      if l.readerCount = 0 then some (.one .writer) else none
    else if l.readerCount = maxReaders - 1 then some (.one .reader) else none
  | _ => none

/-- A latch and its threads, and which of them are asleep. -/
structure Sleepers (ι : Type) where
  system : System ι
  asleep : ι → Bool

namespace Sleepers

variable {ι : Type} [DecidableEq ι]

/-- A new latch. -/
def init : Sleepers ι where
  system := System.init
  asleep := fun _ => false

/-- The thread is asleep on a condition variable. -/
def On (s : Sleepers ι) (c : CondVar) (t : ι) : Prop :=
  s.asleep t = true ∧ (s.system.threads t).phase.condVar = some c

instance (s : Sleepers ι) (c : CondVar) : DecidablePred (s.On c) :=
  fun _ => inferInstanceAs (Decidable (_ ∧ _))

/-- Who is asleep after a notification.  Which thread `notify_one` wakes up is open. -/
inductive Notified (s : Sleepers ι) : Option Notification → (ι → Bool) → Prop where
  | none : Notified s none s.asleep
  | all (c) : Notified s (some (.all c)) fun t => s.asleep t && !decide (s.On c t)
  | one {c t} : s.On c t → Notified s (some (.one c)) (Function.update s.asleep t false)
  | nobody {c} : (∀ t, ¬s.On c t) → Notified s (some (.one c)) s.asleep

/-- What can happen: a step of a thread, or a spurious wake-up. -/
inductive Event (ι : Type) where
  | act (t : ι) (a : Action)
  | spurious (t : ι)

/-- One step.  A thread that is asleep does nothing; a thread that goes on waiting falls asleep. -/
inductive Step (s : Sleepers ι) : Event ι → Sleepers ι → Prop where
  | act {t a system asleep} : s.asleep t = false → s.system.step t a = some system →
      Notified s (notification system.latch a) asleep →
      Step s (.act t a)
        ⟨system, Function.update asleep t (decide ((system.threads t).phase ≠ .outside))⟩
  | spurious {t} : s.asleep t = true →
      Step s (.spurious t) ⟨s.system, Function.update s.asleep t false⟩

end Sleepers

end Rucbase.ReaderWriterLatch
