import Rucbase.Lib.LruCache
import Rucbase.Storage.Equiv.PoolRuns

/-!
# The pool as a cache

Page table, free list, replacer and pin counts together make a cache of pages which, when it needs a
frame, gives up the page that has been unpinned for longest (`LruCache`).  `Tracks` relates a pool
to such a cache, each call is a step of the cache (`cacheStep_tracks`), and every run of calls is a
run of it (`pool_is_lruCache`).
-/

namespace Rucbase.BufferPoolManager

open EStateM

variable {D : Type}

/-! ### Pools and caches -/

/-- The cache has the pages of the pool with their pin counts, and the replacer lists the unpinned
ones in the order in which they became idle, the last one in front. -/
structure Tracks (b : BufferPoolManager D) (c : LruCache PageId) : Prop where
  users : ∀ p, c.users p = (b.pageTable p).map fun f => (b.pages f).pinCount
  room : c.room = b.freeList.length
  order : b.replacer.frames.Pairwise fun f g =>
    c.idleSince (b.pages g).id < c.idleSince (b.pages f).id
  past : ∀ f ∈ b.replacer.frames, c.idleSince (b.pages f).id < c.now

section Steps

variable {b : BufferPoolManager D} {c : LruCache PageId} {p : PageId} {f : Nat}

theorem tracks_new (poolSize : Nat) (fd₀ : Nat → Int) (d : D) :
    (new poolSize fd₀ d).Tracks (.new poolSize) where
  users _ := rfl
  room := List.length_range.symm
  order := .nil
  past _ hf := absurd hf List.not_mem_nil

theorem Tracks.idle_iff (h : b.Tracks c) (hI : FrameInv b) :
    c.Idle p ↔ ∃ f ∈ b.replacer.frames, (b.pages f).id = p := by
  unfold LruCache.Idle
  rw [h.users, Option.map_eq_some_iff]
  constructor
  · rintro ⟨f, hf, hpin⟩
    exact ⟨f, (hI.evictable_iff f).mpr ⟨⟨p, hf⟩, hpin⟩, (hI.table hf).2⟩
  · rintro ⟨f, hf, rfl⟩
    obtain ⟨⟨q, hq⟩, hpin⟩ := (hI.evictable_iff f).mp hf
    rw [(hI.table hq).2]
    exact ⟨f, hq, hpin⟩

/-- A change of the pool that keeps the page table, the pin counts, the ids and the lists. -/
theorem Tracks.congr {b' : BufferPoolManager D} (h : b.Tracks c)
    (htable : b'.pageTable = b.pageTable) (hfree : b'.freeList = b.freeList)
    (hreplacer : b'.replacer = b.replacer)
    (hpages : ∀ f, (b'.pages f).id = (b.pages f).id ∧
      (b'.pages f).pinCount = (b.pages f).pinCount) : b'.Tracks c := by
  refine ⟨fun q => ?_, ?_, ?_, ?_⟩
  · rw [h.users, htable]
    congr 1
    ext1 f
    exact (hpages f).2.symm
  · rw [h.room, hfree]
  · rw [hreplacer]
    simpa only [(hpages _).1] using h.order
  · rw [hreplacer]
    simpa only [(hpages _).1] using h.past

theorem Tracks.cleanFrame (h : b.Tracks c) (f : Nat) (d : D) : (b.cleanFrame f d).Tracks c := by
  refine h.congr rfl rfl rfl fun g => ?_
  by_cases hg : g = f
  · subst hg
    simp [BufferPoolManager.cleanFrame, setPage]
  · simp [BufferPoolManager.cleanFrame, setPage, hg]

/-- The users of a page whose pin count changes. -/
theorem Tracks.users_setPage (h : b.Tracks c) (hI : FrameInv b) (hp : b.pageTable p = some f)
    (page : Page) (q : PageId) : Function.update c.users p (some page.pinCount) q =
      (b.pageTable q).map fun g => ((b.setPage f page).pages g).pinCount := by
  have hpages : (b.setPage f page).pages = Function.update b.pages f page := rfl
  rw [hpages]
  by_cases hq : q = p
  · subst hq
    rw [Function.update_self, hp, Option.map_some, Function.update_self]
  · rw [Function.update_of_ne hq, h.users]
    cases hg : b.pageTable q with
    | none => rfl
    | some g =>
      have hgf : g ≠ f := by
        rintro rfl
        exact hq (hI.table_injective hg hp)
      rw [Option.map_some, Option.map_some, Function.update_of_ne hgf]

/-- A resident page is pinned once more. -/
theorem Tracks.pinFrame (h : b.Tracks c) (hI : FrameInv b) (hp : b.pageTable p = some f) :
    ∃ c', c.Step (.acquire p true) c' ∧ (b.pinFrame f).Tracks c' := by
  have husers : c.users p = some (b.pages f).pinCount := by
    rw [h.users, hp]
    rfl
  have hid : ∀ g, ((b.pinFrame f).pages g).id = (b.pages g).id := id_setPage rfl
  have hsub : (b.pinFrame f).replacer.frames.Sublist b.replacer.frames := by
    show (b.replacer.pin f).frames.Sublist _
    rw [LruReplacer.frames_pin hI.replacer_wf]
    exact List.erase_sublist
  refine ⟨_, .hit husers, ?_, h.room, ?_, fun g hg => ?_⟩
  · exact h.users_setPage hI hp { b.pages f with pinCount := (b.pages f).pinCount + 1 }
  · simpa only [hid] using h.order.sublist hsub
  · rw [hid]
    exact h.past g (hsub.subset hg)

/-- A pinned page loses a pin. -/
theorem Tracks.unpinFrame (h : b.Tracks c) (hI : FrameInv b) (hp : b.pageTable p = some f)
    (hpin : 0 < (b.pages f).pinCount) (isDirty : Bool) :
    ∃ c', c.Step (.release p true) c' ∧ (b.unpinFrame f isDirty).Tracks c' := by
  have husers : c.users p = some ((b.pages f).pinCount - 1 + 1) := by
    rw [h.users, hp, Nat.sub_add_cancel hpin]
    rfl
  have hid : ∀ g, ((b.unpinFrame f isDirty).pages g).id = (b.pages g).id := id_setPage rfl
  have hf : f ∉ b.replacer.frames := by
    intro hf
    have := ((hI.evictable_iff f).mp hf).2
    omega
  have hother : ∀ g ∈ b.replacer.frames, (b.pages g).id ≠ p := by
    rintro g hg rfl
    obtain ⟨⟨q, hq⟩, -⟩ := (hI.evictable_iff g).mp hg
    rw [(hI.table hq).2] at hp
    rw [hp] at hq
    exact hf (Option.some.inj hq ▸ hg)
  refine ⟨_, .release husers, ?_, h.room, ?_, ?_⟩
  · exact h.users_setPage hI hp { b.pages f with
      pinCount := (b.pages f).pinCount - 1, isDirty := (b.pages f).isDirty || isDirty }
  all_goals simp only [hid]
  all_goals by_cases hzero : (b.pages f).pinCount - 1 = 0
  all_goals unfold BufferPoolManager.unpinFrame
  · -- the frame goes to the front of the list, and its page is idle from now on
    rw [if_pos hzero, if_pos hzero, LruReplacer.frames_unpin hI.replacer_wf, if_neg hf,
      List.pairwise_cons, (hI.table hp).2]
    constructor
    · intro g hg
      rw [Function.update_self, Function.update_of_ne (hother g hg)]
      exact h.past g hg
    · refine h.order.imp_of_mem fun hg hg' hlt => ?_
      rwa [Function.update_of_ne (hother _ hg), Function.update_of_ne (hother _ hg')]
  · rw [if_neg hzero, if_neg hzero]
    exact h.order
  · rw [if_pos hzero, if_pos hzero, LruReplacer.frames_unpin hI.replacer_wf, if_neg hf]
    intro g hg
    rcases List.mem_cons.mp hg with rfl | hg
    · rw [(hI.table hp).2, Function.update_self]
      exact Nat.lt_succ_self _
    · rw [Function.update_of_ne (hother g hg)]
      exact Nat.lt_succ_of_lt (h.past g hg)
  · rw [if_neg hzero, if_neg hzero]
    exact fun g hg => Nat.lt_succ_of_lt (h.past g hg)

/-- The frame of a page that is not resident. -/
theorem Tracks.assign (h : b.Tracks c) (hI : FrameInv b) (hp : b.pageTable p = none)
    (hav : b.Available f) (data : PageData) (d : D) :
    ∃ c', c.Step (.acquire p true) c' ∧ (b.assign f p data d).Tracks c' := by
  have husers : c.users p = none := by
    rw [h.users, hp]
    rfl
  -- the users of the page that gives up the frame, if it had one, and of the new page
  have hnew : ∀ q, Function.update (Function.update c.users (b.pages f).id none) p (some 1) q =
      ((b.assign f p data d).pageTable q).map
        fun g => ((b.assign f p data d).pages g).pinCount := by
    intro q
    unfold BufferPoolManager.assign
    by_cases hq : q = p
    · subst hq
      simp
    · simp only [Function.update_of_ne hq]
      by_cases hid : q = (b.pages f).id
      · simp [hid]
      · simp only [Function.update_of_ne hid]
        rw [h.users]
        cases hg : b.pageTable q with
        | none => rfl
        | some g =>
          have hgf : g ≠ f := by
            rintro rfl
            exact hid (hI.table hg).2.symm
          simp [hgf]
  -- the other pages keep their order
  have hid : ∀ g ∈ (b.assign f p data d).replacer.frames,
      ((b.assign f p data d).pages g).id = (b.pages g).id := by
    intro g hg
    have hpage : (b.assign f p data d).pages g = b.pages g :=
      Function.update_of_ne ((mem_frames_assign hav hI g).mp hg).2 ..
    rw [hpage]
  have hsub : (b.assign f p data d).replacer.frames.Sublist b.replacer.frames := by
    unfold BufferPoolManager.assign
    split_ifs
    · rw [LruReplacer.frames_pin hI.replacer_wf.victim, LruReplacer.frames_victim]
      exact List.erase_sublist.trans (List.dropLast_sublist _)
    · rw [LruReplacer.frames_pin hI.replacer_wf]
      exact List.erase_sublist
  have horder : (b.assign f p data d).replacer.frames.Pairwise fun g g' =>
      c.idleSince ((b.assign f p data d).pages g').id <
        c.idleSince ((b.assign f p data d).pages g).id := by
    refine (h.order.sublist hsub).imp_of_mem fun hg hg' hlt => ?_
    rwa [hid _ hg, hid _ hg']
  have hpast : ∀ g ∈ (b.assign f p data d).replacer.frames,
      c.idleSince ((b.assign f p data d).pages g).id < c.now := by
    intro g hg
    rw [hid g hg]
    exact h.past g (hsub.subset hg)
  rcases hav with hfree | ⟨hfree, hv⟩
  · -- a free frame, whose id is that of no page
    obtain ⟨rest, hrest⟩ : ∃ rest, b.freeList = f :: rest := List.head?_eq_some_iff.mp hfree
    have hsame : Function.update c.users (b.pages f).id none = c.users := by
      refine Function.update_eq_self_iff.mpr ?_
      rw [h.users, hI.free_id f (List.mem_of_mem_head? hfree)]
      rfl
    rw [hsame] at hnew
    have hroom : c.room = rest.length + 1 := by
      rw [h.room, hrest, List.length_cons]
    refine ⟨_, .place husers hroom, hnew, ?_, horder, hpast⟩
    show rest.length = b.freeList.tail.length
    rw [hrest, List.tail_cons]
  · -- the last frame of the replacer, whose page has been idle for longest
    have hlast := (LruReplacer.victim_eq_some_iff _ _).mp hv
    obtain ⟨front, hfront⟩ := List.getLast?_eq_some_iff.mp hlast
    have hold : c.Oldest (b.pages f).id := by
      refine ⟨(h.idle_iff hI).mpr ⟨f, List.mem_of_getLast? hlast, rfl⟩, fun q hq hne => ?_⟩
      obtain ⟨g, hg, rfl⟩ := (h.idle_iff hI).mp hq
      rw [hfront] at hg
      rcases List.mem_append.mp hg with hg | hg
      · have hpair := h.order
        rw [hfront, List.pairwise_append] at hpair
        exact hpair.2.2 g hg f List.mem_cons_self
      · rw [List.mem_singleton.mp hg] at hne
        exact absurd rfl hne
    have hroom : c.room = 0 := by
      rw [h.room, hfree, List.length_nil]
    refine ⟨_, .evict husers hroom hold, hnew, ?_, horder, hpast⟩
    show c.room = b.freeList.tail.length
    rw [hroom, hfree]
    rfl

/-- The pool has no frame to give. -/
theorem Tracks.refuse (h : b.Tracks c) (hI : FrameInv b) (hfree : b.freeList = [])
    (hframes : b.replacer.frames = []) (hp : b.pageTable p = none) :
    c.Step (.acquire p false) c := by
  refine .refuse ?_ ?_ fun q hq => ?_
  · rw [h.users, hp]
    rfl
  · rw [h.room, hfree, List.length_nil]
  · obtain ⟨f, hf, -⟩ := (h.idle_iff hI).mp hq
    rw [hframes] at hf
    cases hf

end Steps

/-! ### Calls -/

section Calls

variable [PageDevice D] {b b' : BufferPoolManager D} {c : LruCache PageId}

/-- A call that returns, and what it is to the cache.  `AllocatePage` hands out fresh numbers. -/
def CacheStep (b : BufferPoolManager D) (e : PoolOp × CacheAct PageId) (b' : BufferPoolManager D) :
    Prop :=
  PoolStep b e.1 b' ∧ match e.1 with
    | .fetchPage pageId => ∃ r, fetchPage pageId b = .ok r b' ∧ e.2 = .acquire pageId r.isSome
    | .newPage fd => ∃ r, newPage fd b = .ok r b' ∧
        e.2 = .acquire ⟨fd, (PageDevice.allocatePage b.diskManager fd).1⟩ r.isSome
    | .unpinPage pageId isDirty => ∃ r, unpinPage pageId isDirty b = .ok r b' ∧
        e.2 = .release pageId r
    | _ => e.2 = .other

/-- **One call** is a step of the cache. -/
theorem cacheStep_tracks (h : b.Tracks c) (hI : FrameInv b) {e : PoolOp × CacheAct PageId}
    (hkeeps : b.KeepsFrames e.1) (hstep : b.CacheStep e b') :
    ∃ c', c.Step e.2 c' ∧ b'.Tracks c' := by
  obtain ⟨op, act⟩ := e
  obtain ⟨hpool, hact⟩ := hstep
  cases op with
  | fetchPage pageId =>
    obtain ⟨r, hr, rfl⟩ := hact
    rcases fetchPage_cases hI hr with ⟨f, hf, rfl, rfl⟩ | ⟨hp, hfree, hframes, rfl, rfl⟩ |
      ⟨hp, f, buf, data, d₁, d, hav, rfl, -, -, rfl⟩
    · exact h.pinFrame hI hf
    · exact ⟨c, h.refuse hI hfree hframes hp, h⟩
    · exact h.assign hI hp hav data d
  | newPage fd =>
    obtain ⟨r, hr, rfl⟩ := hact
    have hfresh := hpool.2 fd rfl
    rcases newPage_cases hI hfresh hr with ⟨hfree, hframes, rfl, rfl⟩ | ⟨f, d, hav, rfl, -, rfl⟩
    · exact ⟨c, h.refuse hI hfree hframes (hfresh.table hI), h⟩
    · exact h.assign hI (hfresh.table hI) hav zeroPage d
  | unpinPage pageId isDirty =>
    obtain ⟨r, hr, rfl⟩ := hact
    rcases unpinPage_cases hr with ⟨rfl, rfl, hzero⟩ | ⟨f, hf, hpin, rfl, rfl⟩
    · refine ⟨c, .unused fun n hn => ?_, h⟩
      rw [h.users, Option.map_eq_some_iff] at hn
      obtain ⟨f, hf, hpin⟩ := hn
      rw [hzero f hf] at hpin
      cases hpin
    · exact h.unpinFrame hI hf hpin isDirty
  | flushPage pageId =>
    subst hact
    obtain ⟨r, hr⟩ := exec_discard_iff.mp hpool.1
    refine ⟨c, .other, ?_⟩
    rcases flushPage_cases hr with ⟨-, -, rfl⟩ | ⟨f, d, -, -, -, rfl⟩
    · exact h
    · exact h.cleanFrame f d
  | flushAllPages fd =>
    subst hact
    refine ⟨c, .other, ?_⟩
    refine forM_induct (I := fun b => b.Tracks c) (f := flushFrame fd) ?_ hpool.1 h
    intro i _ s s' _ hs hr
    rcases flushFrame_cases hr with ⟨-, rfl⟩ | ⟨d, -, -, rfl⟩
    · exact hs
    · exact hs.cleanFrame i d
  | deletePage pageId =>
    subst hact
    obtain ⟨r, hr⟩ := exec_discard_iff.mp hpool.1
    refine ⟨c, .other, ?_⟩
    rcases deletePage_cases hr with ⟨rfl, -⟩ | ⟨f, hf, hzero, -⟩
    · exact h
    · have := hkeeps f hf
      omega

/-- **The pool is a cache that gives up the page idle for longest.**  For every pool size and every
run of calls in which disk calls succeed, `AllocatePage` hands out fresh numbers, no `DeletePage`
meets a resident page with pin count zero and no `FetchPage` asks for the id left in a free frame,
there is a run of the cache in which every call has the same answer, and after every call the same
pages are resident with the same pin counts. -/
theorem pool_is_lruCache (poolSize : Nat) (fd₀ : Nat → Int) (d : D)
    (run : List ((PoolOp × CacheAct PageId) × BufferPoolManager D))
    (hrun : Run (fun b e b' => b.KeepsFrames e.1 ∧ b.CacheStep e b') (new poolSize fd₀ d) run) :
    ∃ caches : List (CacheAct PageId × LruCache PageId),
      Run LruCache.Step (.new poolSize) caches ∧
        List.Forall₂ (fun e e' => e'.1 = e.1.2 ∧ e.2.Tracks e'.2) run caches := by
  have hstep : ∀ (b : BufferPoolManager D) (c : LruCache PageId) (e : PoolOp × CacheAct PageId)
      (b' : BufferPoolManager D), b.FrameInv ∧ b.Tracks c → b.KeepsFrames e.1 ∧ b.CacheStep e b' →
      ∃ c', c.Step e.2 c' ∧ b'.FrameInv ∧ b'.Tracks c' := by
    rintro b c e b' ⟨hI, h⟩ ⟨hkeeps, hstep⟩
    obtain ⟨c', hc, h'⟩ := cacheStep_tracks h hI hkeeps hstep
    exact ⟨c', hc, (frameInv_step_iff hI hstep.1).mpr hkeeps, h'⟩
  obtain ⟨caches, hcaches, hall⟩ := hrun.simulates hstep
    ⟨frameInv_new poolSize fd₀ d, tracks_new poolSize fd₀ d⟩
  exact ⟨caches, hcaches, hall.imp fun _ _ h => ⟨h.1, h.2.2⟩⟩

/-- Two pages are created and unpinned in a pool of two frames; the page that is fetched next stays,
and the other one makes room. -/
theorem pool_is_lruCache_two :
    ∃ run : List ((PoolOp × CacheAct PageId) × BufferPoolManager DiskManager),
      run.map (fun e => e.1.1) = [.newPage 3, .newPage 3, .unpinPage ⟨3, 0⟩ true,
        .unpinPage ⟨3, 1⟩ true, .fetchPage ⟨3, 0⟩, .newPage 3] ∧
      (run.getLast?.map fun e => (e.2.pageTable ⟨3, 0⟩, e.2.pageTable ⟨3, 1⟩)) =
        some (some 0, none) ∧
      ∃ caches : List (CacheAct PageId × LruCache PageId), Run LruCache.Step (.new 2) caches ∧
        List.Forall₂ (fun e e' => e'.1 = e.1.2 ∧ e.2.Tracks e'.2) run caches := by
  have hfresh : ∀ {b : BufferPoolManager DiskManager}, b.FreshAlloc 3 →
      ∀ fd, PoolOp.newPage 3 = .newPage fd → b.FreshAlloc fd := by
    rintro b h fd heq
    cases heq
    exact h
  refine ⟨[((_, _), _), ((_, _), _), ((_, _), _), ((_, _), _), ((_, _), _), ((_, _), _)], rfl, ?_,
    pool_is_lruCache 2 (fun _ => 0) oneFile _
      (.cons ⟨trivial, ⟨rfl, hfresh ⟨by decide, by decide⟩⟩, _, rfl, rfl⟩
        (.cons ⟨trivial, ⟨rfl, hfresh ⟨by decide, by decide⟩⟩, _, rfl, rfl⟩
          (.cons ⟨trivial, ⟨rfl, by simp⟩, _, rfl, rfl⟩
            (.cons ⟨trivial, ⟨rfl, by simp⟩, _, rfl, rfl⟩
              (.cons ⟨fun h => absurd h (by decide), ⟨rfl, by simp⟩, _, rfl, rfl⟩
                (.cons ⟨trivial, ⟨rfl, hfresh ⟨by decide, by decide⟩⟩, _, rfl, rfl⟩
                  (.nil _)))))))⟩
  decide

end Calls

end Rucbase.BufferPoolManager
