import Rucbase.Latch.Equiv.ReaderWriterLatch
import Rucbase.Latch.Sleepers

/-!
# Wake-ups of the latch

A thread is rightly asleep as long as the condition of its loop holds.  In a run of the latch no
wake-up gets lost exactly as long as at most one reader is asleep whenever the count leaves
`MAX_READERS` (`latch_keeps_wakeUps_iff`): `RUnlock` notifies only one thread there.  Then the latch
does not come to a standstill: when nobody holds it and everybody who waits is asleep, nobody waits.
-/

namespace Rucbase.ReaderWriterLatch

variable {ι : Type}

/-- The condition of the loop that a thread is in. -/
def Phase.Blocked (l : ReaderWriterLatch) : Phase → Prop
  | .outside => False
  | .wLockReader => l.writerEntered = true
  | .wLockWriter => 0 < l.readerCount
  | .rLock => l.writerEntered = true ∨ l.readerCount = maxReaders

/-! ### Steps of a thread -/

section Act

variable {l l' : ReaderWriterLatch} {th th' : Thread}

/-- A thread goes on waiting only while the condition of its loop holds. -/
theorem blocked_of_act {a : Action} (h : l.act th a = some (l', th'))
    (hphase : th'.phase ≠ .outside) : th'.phase.Blocked l' := by
  have hsecond (l : ReaderWriterLatch) (h : l.wLockSecond th = (l', th')) :
      th'.phase.Blocked l' := by
    unfold wLockSecond at h
    split at h
    case isTrue hcount =>
      obtain ⟨rfl, rfl⟩ := Prod.mk.inj h
      exact hcount
    case isFalse =>
      obtain ⟨rfl, rfl⟩ := Prod.mk.inj h
      exact absurd rfl hphase
  have hwLock (h : l.wLock th = (l', th')) : th'.phase.Blocked l' := by
    unfold wLock at h
    split at h
    case isTrue hentered =>
      obtain ⟨rfl, rfl⟩ := Prod.mk.inj h
      exact hentered
    case isFalse => exact hsecond _ h
  have hrLock (h : l.rLock th = (l', th')) : th'.phase.Blocked l' := by
    unfold rLock at h
    split at h
    case isTrue hblocked =>
      obtain ⟨rfl, rfl⟩ := Prod.mk.inj h
      exact hblocked
    case isFalse =>
      obtain ⟨rfl, rfl⟩ := Prod.mk.inj h
      exact absurd rfl hphase
  unfold act at h
  cases a with
  | wLock =>
    obtain ⟨-, heq⟩ := Option.ite_none_right_eq_some.mp h
    exact hwLock (Option.some.inj heq)
  | rLock =>
    obtain ⟨-, heq⟩ := Option.ite_none_right_eq_some.mp h
    exact hrLock (Option.some.inj heq)
  | wUnlock =>
    obtain ⟨⟨hout, -⟩, heq⟩ := Option.ite_none_right_eq_some.mp h
    obtain ⟨rfl, rfl⟩ := Prod.mk.inj (Option.some.inj heq)
    exact absurd hout hphase
  | rUnlock =>
    obtain ⟨⟨hout, -⟩, heq⟩ := Option.ite_none_right_eq_some.mp h
    obtain ⟨rfl, rfl⟩ := Prod.mk.inj (Option.some.inj heq)
    exact absurd hout hphase
  | wake =>
    cases hwake : th.phase with
    | outside =>
      rw [hwake] at h
      cases h
    | wLockReader =>
      rw [hwake] at h
      exact hwLock (Option.some.inj h)
    | wLockWriter =>
      rw [hwake] at h
      exact hsecond l (Option.some.inj h)
    | rLock =>
      rw [hwake] at h
      exact hrLock (Option.some.inj h)

/-- What a thread blocks on is not undone while others take the latch. -/
inductive Grows (l : ReaderWriterLatch) : ReaderWriterLatch → Prop where
  | same : Grows l l
  | enters : Grows l { l with writerEntered := true }
  | reads : l.writerEntered = false → l.readerCount ≠ maxReaders →
      Grows l { l with readerCount := l.readerCount + 1 }

theorem Grows.blocked {phase : Phase} (h : Grows l l') (hphase : phase.Blocked l) :
    phase.Blocked l' := by
  cases h with
  | same => exact hphase
  | enters =>
    cases phase with
    | outside => exact hphase
    | wLockReader => rfl
    | wLockWriter => exact hphase
    | rLock => exact Or.inl rfl
  | reads hentered hcount =>
    cases phase with
    | outside => exact hphase
    | wLockReader =>
      rw [Phase.Blocked, hentered] at hphase
      cases hphase
    | wLockWriter =>
      show 0 < l.readerCount + 1
      rw [UInt32.lt_iff_toNat_lt, toNat_add_one hcount]
      exact Nat.succ_pos _
    | rLock =>
      rcases hphase with hphase | hphase
      · rw [hentered] at hphase
        cases hphase
      · exact absurd hphase hcount

/-- What the calls do to the latch. -/
def Changes (l : ReaderWriterLatch) (th : Thread) : Action → ReaderWriterLatch → Prop
  | .wUnlock, l' => l' = { l with writerEntered := false }
  | .rUnlock, l' => 0 < th.reads ∧ l' = { l with readerCount := l.readerCount - 1 }
  | _, l' => Grows l l'

theorem act_changes {a : Action} (h : l.act th a = some (l', th')) : Changes l th a l' := by
  have hsecond (l : ReaderWriterLatch) : (l.wLockSecond th).1 = l := by
    unfold wLockSecond
    split
    · rfl
    · rfl
  have hwLock : Grows l (l.wLock th).1 := by
    unfold wLock
    split
    case isTrue => exact .same
    case isFalse =>
      rw [hsecond]
      exact .enters
  have hrLock : Grows l (l.rLock th).1 := by
    unfold rLock
    split
    case isTrue => exact .same
    case isFalse hfree =>
      rw [not_or, Bool.not_eq_true] at hfree
      exact .reads hfree.1 hfree.2
  unfold act at h
  cases a with
  | wLock =>
    obtain ⟨-, heq⟩ := Option.ite_none_right_eq_some.mp h
    rw [Option.some.inj heq] at hwLock
    exact hwLock
  | rLock =>
    obtain ⟨-, heq⟩ := Option.ite_none_right_eq_some.mp h
    rw [Option.some.inj heq] at hrLock
    exact hrLock
  | wUnlock =>
    obtain ⟨-, heq⟩ := Option.ite_none_right_eq_some.mp h
    exact (Prod.mk.inj (Option.some.inj heq)).1.symm
  | rUnlock =>
    obtain ⟨⟨-, hreads⟩, heq⟩ := Option.ite_none_right_eq_some.mp h
    exact ⟨hreads, (Prod.mk.inj (Option.some.inj heq)).1.symm⟩
  | wake =>
    cases hwake : th.phase with
    | outside =>
      rw [hwake] at h
      cases h
    | wLockReader =>
      rw [hwake] at h
      rw [Option.some.inj h] at hwLock
      exact hwLock
    | wLockWriter =>
      rw [hwake] at h
      have hlatch := hsecond l
      rw [Option.some.inj h] at hlatch
      show Grows l l'
      rw [show l' = l from hlatch]
      exact .same
    | rLock =>
      rw [hwake] at h
      rw [Option.some.inj h] at hrLock
      exact hrLock

end Act

namespace Sleepers

/-- Nobody is asleep who could go on. -/
def NoLostWakeUp (s : Sleepers ι) : Prop :=
  ∀ t, s.asleep t = true → (s.system.threads t).phase.Blocked s.system.latch

/-- At most one reader is asleep, unless the count stays away from `MAX_READERS`. -/
def Room (s : Sleepers ι) : Event ι → Prop
  | .act _ .rUnlock =>
    s.system.latch.readerCount = maxReaders → s.system.latch.writerEntered = false →
      ∀ t u, s.asleep t = true → s.asleep u = true → t = u
  | _ => True

variable [DecidableEq ι]

/-- **The condition variables refine the latch**: what the threads do is a run of the latch without
them. -/
theorem Step.refines {s s' : Sleepers ι} {e : Event ι} (h : Step s e s') :
    s'.system = s.system ∨ ∃ t a, s.system.step t a = some s'.system := by
  cases h with
  | act _ hstep _ => exact Or.inr ⟨_, _, hstep⟩
  | spurious _ => exact Or.inl rfl

theorem Notified.asleep_of_asleep {s : Sleepers ι} {n : Option Notification} {asleep : ι → Bool}
    (h : Notified s n asleep) {t : ι} (ht : asleep t = true) : s.asleep t = true := by
  cases h with
  | none => exact ht
  | all c => exact (Bool.and_eq_true_iff.mp ht).1
  | @one c u _ =>
    by_cases htu : t = u
    · rw [htu, Function.update_self] at ht
      cases ht
    · rwa [Function.update_of_ne htu] at ht
  | nobody _ => exact ht

/-- Who is asleep after a step of a thread: the thread itself when it waits, and others who were
asleep before. -/
theorem Step.of_act {s s' : Sleepers ι} {t : ι} {a : Action} (h : Step s (.act t a) s') :
    ∃ l' th' asleep, s.asleep t = false ∧
      s.system.latch.act (s.system.threads t) a = some (l', th') ∧
      Notified s (notification l' a) asleep ∧ s'.system.latch = l' ∧
      (s'.system.threads t = th' ∧ s'.asleep t = decide (th'.phase ≠ .outside)) ∧
      ∀ u, u ≠ t → s'.system.threads u = s.system.threads u ∧ s'.asleep u = asleep u := by
  cases h with
  | @act _ _ system asleep hawake hstep hnotified =>
    obtain ⟨⟨l', th'⟩, hact, rfl⟩ := Option.map_eq_some_iff.mp hstep
    have hself : Function.update s.system.threads t th' t = th' := Function.update_self _ _ _
    refine ⟨l', th', asleep, hawake, hact, hnotified, rfl, ⟨hself, ?_⟩, fun u hut => ⟨?_, ?_⟩⟩
    · show Function.update asleep t (decide ((Function.update s.system.threads t th' t).phase ≠
        .outside)) t = _
      rw [Function.update_self, hself]
    · exact Function.update_of_ne hut _ _
    · exact Function.update_of_ne hut _ _

/-! ### The invariant -/

/-- The invariant: that of the latch, and only threads that wait are asleep. -/
structure Inv [Fintype ι] (s : Sleepers ι) : Prop where
  system : s.system.Inv
  waits : ∀ t, s.asleep t = true → (s.system.threads t).phase ≠ .outside

section Inv

variable [Fintype ι] {s s' : Sleepers ι}

omit [DecidableEq ι] in
theorem inv_init : (init : Sleepers ι).Inv := by
  refine ⟨System.inv_init, fun t ht => ?_⟩
  cases ht

theorem Inv.step (hs : s.Inv) {e : Event ι} (h : Step s e s') : s'.Inv := by
  constructor
  · rcases h.refines with heq | ⟨t, a, hstep⟩
    · rw [heq]
      exact hs.system
    · exact hs.system.step hstep
  · intro u hu
    cases e with
    | act t a =>
      obtain ⟨l', th', asleep, -, -, hnotified, -, ⟨hself, hasleep⟩, hother⟩ := h.of_act
      by_cases hut : u = t
      · rw [hut, hasleep] at hu
        rw [hut, hself]
        exact of_decide_eq_true hu
      · rw [(hother u hut).2] at hu
        rw [(hother u hut).1]
        exact hs.waits u (hnotified.asleep_of_asleep hu)
    | spurious t =>
      cases h with
      | spurious _ =>
        refine hs.waits u ?_
        by_cases hut : u = t
        · subst hut
          have hu : Function.update s.asleep u false u = true := hu
          rw [Function.update_self] at hu
          cases hu
        · have hu : Function.update s.asleep t false u = true := hu
          rwa [Function.update_of_ne hut] at hu

omit [DecidableEq ι] in
/-- Without a writer the sleepers wait in `RLock`. -/
theorem Inv.rLock_of_free (hs : s.Inv) (hlost : s.NoLostWakeUp)
    (hfree : s.system.latch.writerEntered = false) {t : ι} (ht : s.asleep t = true) :
    (s.system.threads t).phase = .rLock := by
  have hblocked := hlost t ht
  cases hphase : (s.system.threads t).phase with
  | outside => exact absurd hphase (hs.waits t ht)
  | wLockReader =>
    rw [hphase, Phase.Blocked, hfree] at hblocked
    cases hblocked
  | wLockWriter => exact absurd (Or.inl hphase) (hs.system.entered hfree t)
  | rLock => rfl

/-! ### Wake-ups -/

/-- `WUnlock` wakes up all who wait for the writer. -/
theorem blocked_of_wUnlock {asleep : ι → Bool} (hs : s.Inv) (hlost : s.NoLostWakeUp)
    (hnotified : Notified s (some (.all .reader)) asleep) {u : ι} (hu : asleep u = true) :
    (s.system.threads u).phase.Blocked { s.system.latch with writerEntered := false } := by
  have hasleep := hnotified.asleep_of_asleep hu
  cases hnotified with
  | all =>
    have hnot : ¬s.On .reader u := by
      simpa [hasleep] using hu
    cases hphase : (s.system.threads u).phase with
    | outside => exact absurd hphase (hs.waits u hasleep)
    | wLockReader => exact absurd ⟨hasleep, by rw [hphase]; rfl⟩ hnot
    | wLockWriter =>
      have hblocked := hlost u hasleep
      rw [hphase] at hblocked
      exact hblocked
    | rLock => exact absurd ⟨hasleep, by rw [hphase]; rfl⟩ hnot

/-- `RUnlock` wakes up the writer that waits for the last reader, and leaves the others asleep. -/
theorem blocked_of_rUnlock {asleep : ι → Bool} (hs : s.Inv) (hlost : s.NoLostWakeUp)
    (hnotified : Notified s (notification
      { s.system.latch with readerCount := s.system.latch.readerCount - 1 } .rUnlock) asleep)
    {u : ι} (hu : asleep u = true)
    (hmax : s.system.latch.writerEntered = true ∨ s.system.latch.readerCount ≠ maxReaders) :
    (s.system.threads u).phase.Blocked
      { s.system.latch with readerCount := s.system.latch.readerCount - 1 } := by
  have hasleep := hnotified.asleep_of_asleep hu
  have hblocked := hlost u hasleep
  cases hphase : (s.system.threads u).phase with
  | outside => exact absurd hphase (hs.waits u hasleep)
  | wLockReader =>
    rw [hphase] at hblocked
    exact hblocked
  | rLock =>
    rw [hphase] at hblocked
    rcases hblocked with hentered | hfull
    · exact Or.inl hentered
    · rcases hmax with hentered | hne
      · exact Or.inl hentered
      · exact absurd hfull hne
  | wLockWriter =>
    show 0 < s.system.latch.readerCount - 1
    by_contra hzero
    -- the writer is the only one on `writer_`, and so it has been notified
    have hzero : s.system.latch.readerCount - 1 = 0 := by
      rw [UInt32.not_lt] at hzero
      exact UInt32.le_zero_iff.mp hzero
    have hentered : s.system.latch.writerEntered = true := by
      by_contra hfree
      exact hs.system.entered (by simpa using hfree) u (Or.inl hphase)
    have hone : notification
        { s.system.latch with readerCount := s.system.latch.readerCount - 1 } .rUnlock =
          some (.one .writer) := by
      simp [notification, hentered, hzero]
    rw [hone] at hnotified
    cases hnotified with
    | @one _ v hv =>
      have hclaim : (s.system.threads v).Claims := by
        refine Or.inl ?_
        have hvar := hv.2
        cases hphase' : (s.system.threads v).phase with
        | wLockWriter => rfl
        | _ =>
          rw [hphase'] at hvar
          cases hvar
      obtain rfl := hs.system.claim u v (Or.inl hphase) hclaim
      rw [Function.update_self] at hu
      cases hu
    | nobody hnobody => exact hnobody u ⟨hasleep, by rw [hphase]; rfl⟩

/-- At `MAX_READERS` only one of the readers that wait is notified. -/
theorem noLostWakeUp_at_max {asleep : ι → Bool} (hs : s.Inv) (hlost : s.NoLostWakeUp)
    (hfree : s.system.latch.writerEntered = false)
    (hnotified : Notified s (some (.one .reader)) asleep) :
    (∀ u, asleep u = false) ↔ ∀ t u, s.asleep t = true → s.asleep u = true → t = u := by
  have hon : ∀ u, s.asleep u = true → s.On .reader u := by
    intro u hu
    refine ⟨hu, ?_⟩
    rw [hs.rLock_of_free hlost hfree hu]
    rfl
  cases hnotified with
  | @one _ v hv =>
    constructor
    · intro hall
      have honly : ∀ t, s.asleep t = true → t = v := by
        intro t ht
        by_contra htv
        have := hall t
        rw [Function.update_of_ne htv, ht] at this
        cases this
      intro t u ht hu
      rw [honly t ht, honly u hu]
    · intro honly u
      by_cases huv : u = v
      · rw [huv, Function.update_self]
      · rw [Function.update_of_ne huv]
        by_contra hu
        exact huv (honly u v (by simpa using hu) hv.1)
  | nobody hnobody =>
    have hnone : ∀ u, s.asleep u = false := by
      intro u
      by_contra hu
      exact hnobody u (hon u (by simpa using hu))
    refine ⟨fun _ t _ ht => ?_, fun _ => hnone⟩
    rw [hnone t] at ht
    cases ht

/-- **A step loses no wake-up** exactly if there is room. -/
theorem noLostWakeUp_iff_room (hs : s.Inv) (hlost : s.NoLostWakeUp) {e : Event ι}
    (h : Step s e s') : s'.NoLostWakeUp ↔ s.Room e := by
  cases e with
  | spurious t =>
    refine ⟨fun _ => trivial, fun _ u hu => ?_⟩
    cases h with
    | spurious _ =>
      refine hlost u ?_
      have hu : Function.update s.asleep t false u = true := hu
      by_cases hut : u = t
      · rw [hut, Function.update_self] at hu
        cases hu
      · rwa [Function.update_of_ne hut] at hu
  | act t a =>
    obtain ⟨l', th', asleep, hawake, hact, hnotified, hlatch, ⟨hself, hasleep⟩, hother⟩ := h.of_act
    -- the thread itself waits only where it has to
    have hiff : s'.NoLostWakeUp ↔
        ∀ u, u ≠ t → asleep u = true → (s.system.threads u).phase.Blocked l' := by
      constructor
      · intro hlost' u hut hu
        have := hlost' u ((hother u hut).2.trans hu)
        rwa [(hother u hut).1, hlatch] at this
      · intro hall u hu
        rw [hlatch]
        by_cases hut : u = t
        · rw [hut, hasleep] at hu
          rw [hut, hself]
          exact blocked_of_act hact (of_decide_eq_true hu)
        · rw [(hother u hut).1]
          exact hall u hut ((hother u hut).2.symm.trans hu)
    rw [hiff]
    have hgrows (hnone : notification l' a = none) (hl : Grows s.system.latch l') :
        ∀ u, u ≠ t → asleep u = true → (s.system.threads u).phase.Blocked l' := by
      intro u _ hu
      rw [hnone] at hnotified
      exact hl.blocked (hlost u (hnotified.asleep_of_asleep hu))
    have hchanges := act_changes hact
    cases a with
    | wLock => exact ⟨fun _ => trivial, fun _ => hgrows rfl hchanges⟩
    | rLock => exact ⟨fun _ => trivial, fun _ => hgrows rfl hchanges⟩
    | wake => exact ⟨fun _ => trivial, fun _ => hgrows rfl hchanges⟩
    | wUnlock =>
      refine ⟨fun _ => trivial, fun _ u _ hu => ?_⟩
      rw [show l' = { s.system.latch with writerEntered := false } from hchanges]
      exact blocked_of_wUnlock hs hlost hnotified hu
    | rUnlock =>
      obtain ⟨-, rfl⟩ := hchanges
      by_cases hmax : s.system.latch.writerEntered = true ∨ s.system.latch.readerCount ≠ maxReaders
      · refine ⟨fun _ hfull hfree => ?_,
          fun _ u _ hu => blocked_of_rUnlock hs hlost hnotified hu hmax⟩
        rcases hmax with hentered | hne
        · rw [hfree] at hentered
          cases hentered
        · exact absurd hfull hne
      · rw [not_or, Bool.not_eq_true, not_not] at hmax
        obtain ⟨hfree, hfull⟩ := hmax
        have hone : notification
            { s.system.latch with readerCount := s.system.latch.readerCount - 1 } .rUnlock =
              some (.one .reader) := by
          simp [notification, hfree, hfull]
        rw [hone] at hnotified
        -- whoever is still asleep could go on
        have hnone : (∀ u, u ≠ t → asleep u = true → (s.system.threads u).phase.Blocked
            { s.system.latch with readerCount := s.system.latch.readerCount - 1 }) ↔
              ∀ u, asleep u = false := by
          refine ⟨fun hall u => ?_, fun hall u _ hu => ?_⟩
          · by_contra hu
            rw [Bool.not_eq_false] at hu
            have hbefore := hnotified.asleep_of_asleep hu
            have hut : u ≠ t := by
              rintro rfl
              rw [hawake] at hbefore
              cases hbefore
            have hblocked := hall u hut hu
            rw [hs.rLock_of_free hlost hfree hbefore] at hblocked
            rcases hblocked with hentered | hcount
            · exact absurd (hfree.symm.trans hentered) (by decide)
            · have hcount : s.system.latch.readerCount - 1 = maxReaders := hcount
              rw [hfull] at hcount
              exact absurd hcount (by decide)
          · rw [hall u] at hu
            cases hu
        rw [hnone, noLostWakeUp_at_max hs hlost hfree hnotified]
        exact ⟨fun honly _ _ => honly, fun hroom => hroom hfull hfree⟩

end Inv

end Sleepers

/-- **Wake-ups.**  In a run of any number of threads, with any wake-ups, nobody is ever asleep who
could go on exactly if at most one thread is asleep whenever a reader leaves at `MAX_READERS`
without a writer waiting. -/
theorem latch_keeps_wakeUps_iff [Fintype ι] [DecidableEq ι]
    (run : List (Sleepers.Event ι × Sleepers ι)) (hrun : Run Sleepers.Step Sleepers.init run) :
    (∀ s ∈ run.map Prod.snd, s.NoLostWakeUp) ↔
      Along (fun s e _ => s.Room e) Sleepers.init run := by
  have hlost : (Sleepers.init : Sleepers ι).NoLostWakeUp := by
    intro t ht
    cases ht
  have hiff := Run.forall_iff_along (J := Sleepers.Inv) (I := Sleepers.NoLostWakeUp)
    (C := fun s e _ => s.Room e)
    (fun s e s' hs hlost h => ⟨hs.step h, Sleepers.noLostWakeUp_iff_room hs hlost h⟩) hrun
    Sleepers.inv_init hlost
  rw [← hiff]
  simp only [List.forall_mem_map]

/-! ### Runs step by step -/

namespace Sleepers

variable [Fintype ι] [DecidableEq ι]

/-- Who is asleep after a notification that wakes up the thread `v` if it wakes up one. -/
def notify (s : Sleepers ι) (v : ι) : Option Notification → Option (ι → Bool)
  | none => some s.asleep
  | some (.all c) => some fun t => s.asleep t && !decide (s.On c t)
  | some (.one c) =>
    if s.On c v then some (Function.update s.asleep v false)
    else if ∀ t, ¬s.On c t then some s.asleep else none

/-- A step with the thread that it wakes up. -/
def next (s : Sleepers ι) : Event ι → ι → Option (Sleepers ι)
  | .spurious t, _ =>
    if s.asleep t then some ⟨s.system, Function.update s.asleep t false⟩ else none
  | .act t a, v =>
    if s.asleep t then none
    else
      match s.system.step t a with
      | none => none
      | some system =>
        (s.notify v (notification system.latch a)).map fun asleep =>
          ⟨system, Function.update asleep t (decide ((system.threads t).phase ≠ .outside))⟩

theorem notified_of_notify {s : Sleepers ι} {v : ι} {n : Option Notification} {asleep : ι → Bool}
    (h : s.notify v n = some asleep) : Notified s n asleep := by
  cases n with
  | none =>
    obtain rfl := Option.some.inj h
    exact .none
  | some n =>
    cases n with
    | all c =>
      obtain rfl := Option.some.inj h
      exact .all c
    | one c =>
      simp only [notify] at h
      split at h
      case isTrue hon =>
        obtain rfl := Option.some.inj h
        exact .one hon
      case isFalse =>
        obtain ⟨hnobody, heq⟩ := Option.ite_none_right_eq_some.mp h
        obtain rfl := Option.some.inj heq
        exact .nobody hnobody

theorem step_of_next {s s' : Sleepers ι} {e : Event ι} {v : ι} (h : s.next e v = some s') :
    Step s e s' := by
  cases e with
  | spurious t =>
    obtain ⟨hasleep, heq⟩ := Option.ite_none_right_eq_some.mp h
    obtain rfl := Option.some.inj heq
    exact .spurious hasleep
  | act t a =>
    simp only [next] at h
    split at h
    case isTrue => cases h
    case isFalse hawake =>
      split at h
      case h_1 => cases h
      case h_2 system hstep =>
        obtain ⟨asleep, hnotify, rfl⟩ := Option.map_eq_some_iff.mp h
        exact .act (by simpa using hawake) hstep (notified_of_notify hnotify)

/-- Steps one after another, up to the first that cannot be taken. -/
def trace (s : Sleepers ι) : List (Event ι × ι) → List (Event ι × Sleepers ι)
  | [] => []
  | e :: l =>
    match s.next e.1 e.2 with
    | some s' => (e.1, s') :: trace s' l
    | none => []

theorem run_trace (l : List (Event ι × ι)) (s : Sleepers ι) : Run Step s (s.trace l) := by
  induction l generalizing s with
  | nil => exact .nil s
  | cons e l ih =>
    unfold trace
    cases h : s.next e.1 e.2 with
    | none => exact .nil s
    | some s' => exact .cons (step_of_next h) (ih s')

end Sleepers

/-- Two threads: the second asks for writing while the first is reading, falls asleep, and is woken
up when the first leaves. -/
theorem latch_keeps_wakeUps_two :
    let steps : List (Sleepers.Event (Fin 2) × Fin 2) :=
      [(.act 0 .rLock, 0), (.act 1 .wLock, 0), (.act 0 .rUnlock, 1), (.act 1 .wake, 0)]
    let run := Sleepers.init.trace steps
    run.map (fun e => (e.2.asleep 1, (e.2.system.threads 1).writes)) =
      [(false, false), (true, false), (false, false), (false, true)] ∧
    ((∀ s ∈ run.map Prod.snd, s.NoLostWakeUp) ↔
      Along (fun s e _ => s.Room e) Sleepers.init run) := by
  intro steps run
  exact ⟨by decide, latch_keeps_wakeUps_iff run (Sleepers.run_trace steps Sleepers.init)⟩

/-! ### No standstill -/

/-- A writer that has entered keeps its claim until `WUnlock`. -/
theorem claims_of_act {l l' : ReaderWriterLatch} {th th' : Thread} {a : Action}
    (h : l.act th a = some (l', th')) (hentered : l'.writerEntered = true)
    (hbefore : th.Claims ∨ l.writerEntered = false) : th'.Claims := by
  have hsecond (l : ReaderWriterLatch) : (l.wLockSecond th).2.Claims := by
    unfold wLockSecond
    split
    · exact Or.inl rfl
    · exact Or.inr rfl
  -- where the thread does not wait for the readers, its claim is that it writes
  have hwrites (hphase : th.phase ≠ .wLockWriter) (hfree : l.writerEntered ≠ false) :
      th.writes = true := by
    rcases hbefore with hclaim | hfree'
    · exact hclaim.resolve_left hphase
    · exact absurd hfree' hfree
  have hwLock (hphase : th.phase ≠ .wLockWriter) (h : l.wLock th = (l', th')) : th'.Claims := by
    unfold wLock at h
    split at h
    case isTrue hentered' =>
      obtain ⟨rfl, rfl⟩ := Prod.mk.inj h
      exact Or.inr (hwrites hphase (by rw [hentered']; decide))
    case isFalse =>
      have hclaims := hsecond { l with writerEntered := true }
      rwa [h] at hclaims
  have hrLock (hphase : th.phase ≠ .wLockWriter) (h : l.rLock th = (l', th')) : th'.Claims := by
    unfold rLock at h
    split at h
    case isTrue =>
      obtain ⟨rfl, rfl⟩ := Prod.mk.inj h
      exact Or.inr (hwrites hphase (by rw [hentered]; decide))
    case isFalse =>
      obtain ⟨rfl, rfl⟩ := Prod.mk.inj h
      exact Or.inr (hwrites hphase fun hfree => absurd (hfree.symm.trans hentered) (by decide))
  unfold act at h
  cases a with
  | wLock =>
    obtain ⟨hout, heq⟩ := Option.ite_none_right_eq_some.mp h
    exact hwLock (by rw [hout]; decide) (Option.some.inj heq)
  | rLock =>
    obtain ⟨hout, heq⟩ := Option.ite_none_right_eq_some.mp h
    exact hrLock (by rw [hout]; decide) (Option.some.inj heq)
  | wUnlock =>
    obtain ⟨-, heq⟩ := Option.ite_none_right_eq_some.mp h
    obtain ⟨rfl, rfl⟩ := Prod.mk.inj (Option.some.inj heq)
    cases hentered
  | rUnlock =>
    obtain ⟨⟨hout, -⟩, heq⟩ := Option.ite_none_right_eq_some.mp h
    obtain ⟨rfl, rfl⟩ := Prod.mk.inj (Option.some.inj heq)
    exact Or.inr (hwrites (by rw [hout]; decide)
      fun hfree => absurd (hfree.symm.trans hentered) (by decide))
  | wake =>
    cases hwake : th.phase with
    | outside =>
      rw [hwake] at h
      cases h
    | wLockReader =>
      rw [hwake] at h
      exact hwLock (by rw [hwake]; decide) (Option.some.inj h)
    | wLockWriter =>
      rw [hwake] at h
      have hclaims := hsecond l
      rwa [Option.some.inj h] at hclaims
    | rLock =>
      rw [hwake] at h
      exact hrLock (by rw [hwake]; decide) (Option.some.inj h)

namespace Sleepers

/-- `writer_entered_` is set by a writer that is still there. -/
def Claimed (s : Sleepers ι) : Prop :=
  s.system.latch.writerEntered = true → ∃ t, (s.system.threads t).Claims

variable [DecidableEq ι] {s s' : Sleepers ι}

theorem Claimed.step (hs : s.Claimed) {e : Event ι} (h : Step s e s') : s'.Claimed := by
  intro hentered
  cases e with
  | spurious t =>
    cases h with
    | spurious _ => exact hs hentered
  | act t a =>
    obtain ⟨l', th', asleep, -, hact, -, rfl, ⟨hself, -⟩, hother⟩ := h.of_act
    by_cases hbefore : (s.system.threads t).Claims ∨ s.system.latch.writerEntered = false
    · refine ⟨t, ?_⟩
      rw [hself]
      exact claims_of_act hact hentered hbefore
    · rw [not_or, Bool.not_eq_false] at hbefore
      obtain ⟨u, hu⟩ := hs hbefore.2
      have hut : u ≠ t := by
        rintro rfl
        exact hbefore.1 hu
      refine ⟨u, ?_⟩
      rwa [(hother u hut).1]

/-- Nobody holds the latch. -/
def Unheld (s : Sleepers ι) : Prop :=
  ∀ t, (s.system.threads t).reads = 0 ∧ (s.system.threads t).writes = false

/-- Everybody who waits is asleep. -/
def Still (s : Sleepers ι) : Prop :=
  ∀ t, (s.system.threads t).phase ≠ .outside → s.asleep t = true

omit [DecidableEq ι] in
/-- Nobody waits for a latch that nobody holds. -/
theorem outside_of_unheld [Fintype ι] (hs : s.Inv) (hclaimed : s.Claimed)
    (hlost : s.NoLostWakeUp) (hunheld : s.Unheld) (hstill : s.Still) (t : ι) :
    (s.system.threads t).phase = .outside := by
  have hcount : s.system.latch.readerCount = 0 := by
    rw [← UInt32.toNat_inj, hs.system.count]
    exact Finset.sum_eq_zero fun u _ => (hunheld u).1
  -- a writer that has entered would be asleep although the readers are gone
  have hfree : s.system.latch.writerEntered = false := by
    by_contra hentered
    obtain ⟨u, hphase | hwrites⟩ := hclaimed (by simpa using hentered)
    · have hblocked := hlost u (hstill u (by rw [hphase]; decide))
      rw [hphase, Phase.Blocked, hcount] at hblocked
      exact absurd hblocked (by decide)
    · rw [(hunheld u).2] at hwrites
      cases hwrites
  by_contra hphase
  have hblocked := hlost t (hstill t hphase)
  rw [hs.rLock_of_free hlost hfree (hstill t hphase)] at hblocked
  rcases hblocked with hentered | hfull
  · rw [hfree] at hentered
    cases hentered
  · rw [hcount] at hfull
    exact absurd hfull (by decide)

end Sleepers

/-- **No standstill.**  In a run in which at most one thread is asleep whenever a reader leaves at
`MAX_READERS`, the latch never gets stuck: whenever nobody holds it and everybody who waits is
asleep, nobody waits. -/
theorem latch_never_stuck [Fintype ι] [DecidableEq ι]
    (run : List (Sleepers.Event ι × Sleepers ι)) (hrun : Run Sleepers.Step Sleepers.init run)
    (hroom : Along (fun s e _ => s.Room e) Sleepers.init run) :
    ∀ s ∈ run.map Prod.snd, s.Unheld → s.Still → ∀ t, (s.system.threads t).phase = .outside := by
  have hinit : (Sleepers.init : Sleepers ι).Inv ∧ (Sleepers.init : Sleepers ι).Claimed ∧
      (Sleepers.init : Sleepers ι).NoLostWakeUp := by
    refine ⟨Sleepers.inv_init, fun hentered => ?_, fun t ht => ?_⟩
    · cases hentered
    · cases ht
  obtain ⟨hall, -⟩ := Run.along_of_invariant (Q := fun _ _ _ => True)
    (I := fun s : Sleepers ι => s.Inv ∧ s.Claimed ∧ s.NoLostWakeUp)
    (fun s e s' hs h hroom => ⟨⟨hs.1.step h, hs.2.1.step h,
      (Sleepers.noLostWakeUp_iff_room hs.1 hs.2.2 h).mpr hroom⟩, trivial⟩) hrun hinit hroom
  simp only [List.forall_mem_map]
  intro e he hunheld hstill
  obtain ⟨hinv, hclaimed, hlost⟩ := hall e he
  exact Sleepers.outside_of_unheld hinv hclaimed hlost hunheld hstill

/-- A reader and a writer that has to wait for it, up to the end. -/
theorem latch_never_stuck_two :
    let steps : List (Sleepers.Event (Fin 2) × Fin 2) :=
      [(.act 0 .rLock, 0), (.act 1 .wLock, 0), (.act 0 .rUnlock, 1), (.act 1 .wake, 0),
        (.act 1 .wUnlock, 0)]
    let run := Sleepers.init.trace steps
    run.length = 5 ∧
    ∀ s ∈ run.map Prod.snd, s.Unheld → s.Still → ∀ t, (s.system.threads t).phase = .outside := by
  intro steps run
  refine ⟨by decide, latch_never_stuck run (Sleepers.run_trace steps Sleepers.init) ?_⟩
  refine ⟨trivial, trivial, fun hfull => ?_, trivial, trivial, trivial⟩
  exact absurd hfull (by decide)

end Rucbase.ReaderWriterLatch
