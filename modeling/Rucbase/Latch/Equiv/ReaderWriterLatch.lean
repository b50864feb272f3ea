import Mathlib.Algebra.Order.BigOperators.Group.Finset
import Rucbase.Latch.ReaderWriterLatch
import Rucbase.Lib.Run

/-!
# The latch excludes

A writer *claims* the latch from the moment it leaves the first loop of `WLock` until `WUnlock`;
`writer_entered_` says whether there is one.  In every run of any number of threads there is at most
one claim, `reader_count_` is the number of read holds, and a thread that holds the latch for
writing is alone (`latch_excludes`).
-/

namespace Rucbase.ReaderWriterLatch

variable {ι : Type}

/-- The thread is between the first loop of `WLock` and `WUnlock`. -/
def Thread.Claims (th : Thread) : Prop := th.phase = .wLockWriter ∨ th.writes = true

/-- What a step can do to the latch and to its thread. -/
inductive Effect (l : ReaderWriterLatch) (th : Thread) : ReaderWriterLatch × Thread → Prop where
  /-- A loop goes on. -/
  | waits {th' : Thread} (reads : th'.reads = th.reads) (writes : th'.writes = th.writes)
      (claims : th'.Claims → th.Claims) : Effect l th (l, th')
  /-- A writer leaves the first loop, and perhaps the second as well. -/
  | enters {th' : Thread} (free : l.writerEntered = false) (reads : th'.reads = th.reads)
      (alone : th'.writes = true → th.writes = true ∨ l.readerCount = 0) :
      Effect l th ({ l with writerEntered := true }, th')
  /-- A writer leaves the second loop. -/
  | acquires {th' : Thread} (claims : th.Claims) (reads : th'.reads = th.reads)
      (alone : l.readerCount = 0) : Effect l th (l, th')
  | wUnlocks {th' : Thread} (writes : th.writes = true) (reads : th'.reads = th.reads)
      (claims : ¬th'.Claims) : Effect l th ({ l with writerEntered := false }, th')
  | rLocks {th' : Thread} (free : l.writerEntered = false) (room : l.readerCount ≠ maxReaders)
      (reads : th'.reads = th.reads + 1) (writes : th'.writes = th.writes)
      (claims : th'.Claims → th.Claims) :
      Effect l th ({ l with readerCount := l.readerCount + 1 }, th')
  | rUnlocks {th' : Thread} (held : 0 < th.reads) (reads : th'.reads = th.reads - 1)
      (writes : th'.writes = th.writes) (claims : th'.Claims → th.Claims) :
      Effect l th ({ l with readerCount := l.readerCount - 1 }, th')

variable {l : ReaderWriterLatch} {th : Thread}

theorem toNat_add_one {c : UInt32} (hc : c ≠ maxReaders) : (c + 1).toNat = c.toNat + 1 := by
  have hne : c.toNat ≠ 4294967295 := fun h => hc (UInt32.toNat_inj.mp h)
  have hlt := c.toNat_lt
  rw [UInt32.toNat_add]
  show (c.toNat + 1) % 2 ^ 32 = _
  omega

theorem toNat_sub_one {c : UInt32} (hc : 0 < c.toNat) : (c - 1).toNat = c.toNat - 1 :=
  UInt32.toNat_sub_of_le c 1 hc

/-- `WLock` from its first loop on. -/
theorem wLock_effect : Effect l th (l.wLock th) := by
  unfold wLock
  cases hentered : l.writerEntered with
  | true =>
    refine .waits rfl rfl fun hc => ?_
    rcases hc with h | h
    · cases h
    · exact Or.inr h
  | false =>
    rw [if_neg (by decide)]
    unfold wLockSecond
    by_cases hcount : l.readerCount > 0
    · rw [if_pos hcount]
      exact .enters hentered rfl fun hw => Or.inl hw
    · rw [if_neg hcount]
      exact .enters hentered rfl fun _ => Or.inr (UInt32.le_zero_iff.mp (UInt32.not_lt.mp hcount))

/-- `WLock` from its second loop on. -/
theorem wLockSecond_effect (hphase : th.phase = .wLockWriter) :
    Effect l th (l.wLockSecond th) := by
  unfold wLockSecond
  by_cases hcount : l.readerCount > 0
  · rw [if_pos hcount]
    exact .waits rfl rfl fun _ => Or.inl hphase
  · rw [if_neg hcount]
    exact .acquires (Or.inl hphase) rfl (UInt32.le_zero_iff.mp (UInt32.not_lt.mp hcount))

theorem rLock_effect : Effect l th (l.rLock th) := by
  unfold rLock
  by_cases hwait : l.writerEntered ∨ l.readerCount = maxReaders
  · rw [if_pos hwait]
    refine .waits rfl rfl fun hc => ?_
    rcases hc with h | h
    · cases h
    · exact Or.inr h
  · rw [if_neg hwait]
    obtain ⟨hfree, hroom⟩ := not_or.mp hwait
    refine .rLocks (by simpa using hfree) hroom rfl rfl fun hc => ?_
    rcases hc with h | h
    · cases h
    · exact Or.inr h

/-- **Every step** is one of these. -/
theorem act_effect {a : Action} {r : ReaderWriterLatch × Thread} (h : l.act th a = some r) :
    Effect l th r := by
  unfold act at h
  cases a with
  | wLock =>
    obtain ⟨-, heq⟩ := Option.ite_none_right_eq_some.mp h
    rw [← Option.some.inj heq]
    exact wLock_effect
  | rLock =>
    obtain ⟨-, heq⟩ := Option.ite_none_right_eq_some.mp h
    rw [← Option.some.inj heq]
    exact rLock_effect
  | wUnlock =>
    obtain ⟨⟨hphase, hwrites⟩, heq⟩ := Option.ite_none_right_eq_some.mp h
    rw [← Option.some.inj heq]
    refine .wUnlocks hwrites rfl fun hc => ?_
    rcases hc with h | h
    · exact absurd (hphase.symm.trans h) (by decide)
    · cases h
  | rUnlock =>
    obtain ⟨⟨-, hreads⟩, heq⟩ := Option.ite_none_right_eq_some.mp h
    rw [← Option.some.inj heq]
    exact .rUnlocks hreads rfl rfl id
  | wake =>
    cases hphase : th.phase with
    | outside =>
      rw [hphase] at h
      cases h
    | wLockReader =>
      rw [hphase] at h
      rw [← Option.some.inj h]
      exact wLock_effect
    | wLockWriter =>
      rw [hphase] at h
      rw [← Option.some.inj h]
      exact wLockSecond_effect hphase
    | rLock =>
      rw [hphase] at h
      rw [← Option.some.inj h]
      exact rLock_effect

namespace System

variable [Fintype ι]

/-- What the latch guarantees. -/
structure Excludes (s : System ι) : Prop where
  /-- A writer is alone. -/
  alone : ∀ t, (s.threads t).writes = true →
    ∀ u, u ≠ t → (s.threads u).writes = false ∧ (s.threads u).reads = 0
  /-- A thread that has called `RLock` several times counts several times. -/
  count : s.latch.readerCount.toNat = ∑ t, (s.threads t).reads
  claim : ∀ t u, (s.threads t).Claims → (s.threads u).Claims → t = u

/-- The invariant behind it. -/
structure Inv (s : System ι) : Prop where
  count : s.latch.readerCount.toNat = ∑ t, (s.threads t).reads
  claim : ∀ t u, (s.threads t).Claims → (s.threads u).Claims → t = u
  entered : s.latch.writerEntered = false → ∀ t, ¬(s.threads t).Claims
  writes : ∀ t, (s.threads t).writes = true → s.latch.readerCount = 0

theorem Inv.excludes {s : System ι} (hs : s.Inv) : s.Excludes := by
  refine ⟨fun t ht u hu => ⟨?_, ?_⟩, hs.count, hs.claim⟩
  · by_contra hw
    exact hu (hs.claim u t (Or.inr (by simpa using hw)) (Or.inr ht))
  · have hsum := hs.count
    rw [hs.writes t ht] at hsum
    exact Finset.sum_eq_zero_iff.mp hsum.symm u (Finset.mem_univ u)

theorem inv_init : (init : System ι).Inv := by
  refine ⟨?_, fun t u ht => ?_, fun _ t ht => ?_, fun t ht => ?_⟩
  · simp [init]
  · rcases ht with h | h
    · cases h
    · cases h
  · rcases ht with h | h
    · cases h
    · cases h
  · cases ht

variable [DecidableEq ι]

/-- The read holds after one thread has changed. -/
theorem sum_reads_update (f : ι → Thread) (t : ι) (th : Thread) :
    ∑ u, (Function.update f t th u).reads + (f t).reads = ∑ u, (f u).reads + th.reads := by
  rw [← Finset.add_sum_erase _ _ (Finset.mem_univ t),
    ← Finset.add_sum_erase _ (fun u => (f u).reads) (Finset.mem_univ t), Function.update_self]
  have hrest : ∑ u ∈ Finset.univ.erase t, (Function.update f t th u).reads =
      ∑ u ∈ Finset.univ.erase t, (f u).reads := by
    refine Finset.sum_congr rfl fun u hu => ?_
    rw [Function.update_of_ne (Finset.ne_of_mem_erase hu)]
  rw [hrest]
  omega

/-- **A step keeps the invariant.** -/
theorem Inv.step {s s' : System ι} (hs : s.Inv) {t : ι} {a : Action} (h : s.step t a = some s') :
    s'.Inv := by
  obtain ⟨⟨l', th'⟩, hact, rfl⟩ := Option.map_eq_some_iff.mp h
  have hsum := sum_reads_update s.threads t th'
  have hcount := hs.count
  have hself : Function.update s.threads t th' t = th' := Function.update_self _ _ _
  have hother : ∀ u, u ≠ t → Function.update s.threads t th' u = s.threads u :=
    fun u hu => Function.update_of_ne hu _ _
  -- if the thread gains no claim, no thread does
  have hclaim : (th'.Claims → (s.threads t).Claims) →
      ∀ u, (Function.update s.threads t th' u).Claims → (s.threads u).Claims := by
    intro hth u hu
    by_cases hut : u = t
    · rw [hut, hself] at hu
      exact hut ▸ hth hu
    · rwa [hother u hut] at hu
  have hwrites : th'.writes = (s.threads t).writes →
      ∀ u, (Function.update s.threads t th' u).writes = (s.threads u).writes := by
    intro hth u
    by_cases hut : u = t
    · rw [hut, hself, hth]
    · rw [hother u hut]
  cases act_effect hact with
  | waits reads writes claims =>
    refine ⟨?_, fun u v hu hv => ?_, fun he u hu => ?_, fun u hu => ?_⟩
    · show s.latch.readerCount.toNat = ∑ u, (Function.update s.threads t th' u).reads
      omega
    · exact hs.claim u v (hclaim claims u hu) (hclaim claims v hv)
    · exact hs.entered he u (hclaim claims u hu)
    · rw [hwrites writes] at hu
      exact hs.writes u hu
  | enters free reads alone =>
    -- nobody has a claim yet, so this is the only one
    have honly : ∀ u, (Function.update s.threads t th' u).Claims → u = t := by
      intro u hu
      by_contra hut
      rw [hother u hut] at hu
      exact hs.entered free u hu
    refine ⟨?_, fun u v hu hv => ?_, fun he => ?_, fun u hu => ?_⟩
    · show s.latch.readerCount.toNat = ∑ u, (Function.update s.threads t th' u).reads
      omega
    · rw [honly u hu, honly v hv]
    · cases he
    · obtain rfl := honly u (Or.inr hu)
      have hu' : (Function.update s.threads u th' u).writes = true := hu
      rw [hself] at hu'
      rcases alone hu' with hw | hzero
      · exact absurd (Or.inr hw) (hs.entered free u)
      · exact hzero
  | acquires claims reads alone =>
    refine ⟨?_, fun u v hu hv => ?_, fun he u hu => ?_, fun _ _ => alone⟩
    · show s.latch.readerCount.toNat = ∑ u, (Function.update s.threads t th' u).reads
      omega
    · exact hs.claim u v (hclaim (fun _ => claims) u hu) (hclaim (fun _ => claims) v hv)
    · exact hs.entered he u (hclaim (fun _ => claims) u hu)
  | wUnlocks writes reads claims =>
    -- the claim that ends was the only one
    have hnone : ∀ u, ¬(Function.update s.threads t th' u).Claims := by
      intro u hu
      by_cases hut : u = t
      · rw [hut, hself] at hu
        exact claims hu
      · rw [hother u hut] at hu
        exact hut (hs.claim u t hu (Or.inr writes))
    refine ⟨?_, fun u v hu => absurd hu (hnone u), fun _ => hnone,
      fun u hu => absurd (Or.inr hu) (hnone u)⟩
    show s.latch.readerCount.toNat = ∑ u, (Function.update s.threads t th' u).reads
    omega
  | rLocks free room reads writes claims =>
    have hnone : ∀ u, ¬(Function.update s.threads t th' u).Claims :=
      fun u hu => hs.entered free u (hclaim claims u hu)
    refine ⟨?_, fun u v hu => absurd hu (hnone u), fun _ => hnone,
      fun u hu => absurd (Or.inr hu) (hnone u)⟩
    show (s.latch.readerCount + 1).toNat = ∑ u, (Function.update s.threads t th' u).reads
    rw [toNat_add_one room]
    omega
  | rUnlocks held reads writes claims =>
    have hle : (s.threads t).reads ≤ s.latch.readerCount.toNat := by
      rw [hcount]
      exact Finset.single_le_sum (f := fun u => (s.threads u).reads) (fun u _ => Nat.zero_le _)
        (Finset.mem_univ t)
    have hpos : 0 < s.latch.readerCount.toNat := held.trans_le hle
    refine ⟨?_, fun u v hu hv => ?_, fun he u hu => ?_, fun u hu => ?_⟩
    · show (s.latch.readerCount - 1).toNat = ∑ u, (Function.update s.threads t th' u).reads
      rw [toNat_sub_one hpos]
      omega
    · exact hs.claim u v (hclaim claims u hu) (hclaim claims v hv)
    · exact hs.entered he u (hclaim claims u hu)
    · -- a writer would be alone
      rw [hwrites writes] at hu
      rw [hs.writes u hu] at hpos
      exact absurd hpos (lt_irrefl 0)

end System

/-- Steps of threads one after another, up to the first that cannot be taken. -/
def System.trace [DecidableEq ι] (s : System ι) :
    List (ι × Action) → List ((ι × Action) × System ι)
  | [] => []
  | a :: l =>
    match s.step a.1 a.2 with
    | some s' => (a, s') :: trace s' l
    | none => []

theorem System.run_trace [DecidableEq ι] (l : List (ι × Action)) (s : System ι) :
    Run (fun s a s' => System.step s a.1 a.2 = some s') s (s.trace l) := by
  induction l generalizing s with
  | nil => exact .nil s
  | cons a l ih =>
    unfold trace
    cases h : s.step a.1 a.2 with
    | none => exact .nil s
    | some s' => exact .cons h (ih s')

/-- **The latch excludes.**  In every run of any number of threads, a thread that holds the latch for
writing is the only one that holds it, `reader_count_` is the number of read holds, and at most one
thread is between the first loop of `WLock` and `WUnlock`. -/
theorem latch_excludes [Fintype ι] [DecidableEq ι] (run : List ((ι × Action) × System ι))
    (hrun : Run (fun s a s' => s.step a.1 a.2 = some s') System.init run) :
    ∀ s ∈ System.init :: run.map Prod.snd, s.Excludes := by
  have hinv : ∀ (s : System ι) (a : ι × Action) s', s.Inv → s.step a.1 a.2 = some s' → True →
      s'.Inv ∧ True := fun s a s' hs h _ => ⟨hs.step h, trivial⟩
  obtain ⟨hall, -⟩ := Run.along_of_invariant hinv hrun System.inv_init 
    (Along.of_forall (fun _ _ _ => trivial) _ _)
  intro s hs
  rcases List.mem_cons.mp hs with rfl | hs
  · exact System.inv_init.excludes
  · obtain ⟨e, he, rfl⟩ := List.mem_map.mp hs
    exact (hall e he).excludes

/-- Two threads: the second asks for writing while the first is reading, and gets the latch when the
first has left. -/
theorem latch_excludes_two :
    let steps : List (Fin 2 × Action) :=
      [(0, .rLock), (1, .wLock), (0, .rUnlock), (1, .wake), (1, .wUnlock)]
    let run := System.trace System.init steps
    run.map (fun e => (e.2.threads 1).writes) = [false, false, false, true, false] ∧
      ∀ s ∈ System.init :: run.map Prod.snd, s.Excludes := by
  intro steps run
  exact ⟨by decide, latch_excludes run (System.run_trace steps System.init)⟩

end Rucbase.ReaderWriterLatch
