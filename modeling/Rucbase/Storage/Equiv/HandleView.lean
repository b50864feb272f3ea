import Rucbase.Storage.Equiv.PageStore
import Rucbase.Storage.Equiv.PinnedFile

/-!
# What a handle sees of the pool

`PageStore` is the pool as the handle of one file sees it: nothing is ever evicted, there are no
frames and no dirty flags.  `PoolClient.Shows` relates a pool, with all that goes on in it, to such a
store.  A page that was evicted has no users, and its last bytes are on disk, so that the store, which
still lists it, answers for it as the pool does.  Each call that gets a frame is a call of the store
with the same answer (`answerStep_shows`), and with it every run (`pool_serves_handles`).
-/

namespace Rucbase

open BufferPoolManager DiskManager EStateM

/-- What a handle gets back from a call. -/
inductive StoreAnswer where
  | page (data : PageData)
  | created (pageNo : Int)
  | bool (b : Bool)
  | saved (disk : Int → Option PageData)
  | done

/-- What a call on the pool answers; a call that finds no frame has no answer.  After
`FlushAllPages` the answer is what the file then holds. -/
def PoolClient.Answers (c : PoolClient) : ClientOp → StoreAnswer → Prop
  | .newPage fd, a => ∃ f p b', newPage fd c.bpm = .ok (some (f, p)) b' ∧ a = .created p.pageNo
  | .fetchPage p, a => ∃ f b', fetchPage p c.bpm = .ok (some f) b' ∧ a = .page (b'.pages f).data
  | .unpinPage p isDirty, a => ∃ r b', unpinPage p isDirty c.bpm = .ok r b' ∧ a = .bool r
  | .flushAllPages fd, a => ∃ b', flushAllPages fd c.bpm = .ok () b' ∧
      a = .saved fun n => b'.diskManager.contents ⟨fd, n⟩
  | .flushPage _, a => a = .done
  | .write _ _, a => a = .done

/-- A call of a client, with the answer if it is about the file open under `fd`. -/
def PoolClient.AnswerStep (fd : Int) (c : PoolClient) (e : ClientOp × StoreAnswer)
    (c' : PoolClient) : Prop :=
  ClientStep c e.1 c' ∧ (e.1.fd = fd → c.Answers e.1 e.2)

namespace PageStore

/-- A call on the store.  Of what it has saved, all is on disk. -/
def Answers (s : PageStore PageData) : ClientOp → StoreAnswer → PageStore PageData → Prop
  | .newPage fd, a, s' => a = .created (s.fd2pageno fd) ∧ s' = s.newPage zeroPage fd
  | .fetchPage p, a, s' => ∃ data, s.fetchPage p = some (data, s') ∧ a = .page data
  | .unpinPage p _, a, s' => a = .bool (s.unpinPage p).1 ∧ s' = (s.unpinPage p).2
  | .flushAllPages fd, a, s' => s' = s.flushAllPages fd ∧
      ∃ disk, a = .saved disk ∧ ∀ n data, s'.disk n = some data → disk n = some data
  | .flushPage _, a, s' => a = .done ∧ s' = s
  | .write p data, a, s' => a = .done ∧ s' = s.setPage p data

/-- A call on the store of the file open under `fd`; calls on other files do not show. -/
def Step (fd : Int) (s : PageStore PageData) (e : ClientOp × StoreAnswer)
    (s' : PageStore PageData) : Prop :=
  if e.1.fd = fd then s.Answers e.1 e.2 s' else s' = s

/-- The pages of the file are the same after `FlushAllPages`. -/
theorem view_flushAllPages (s : PageStore PageData) (fd n : Int) :
    (s.flushAllPages fd).view ⟨fd, n⟩ = s.view ⟨fd, n⟩ := by
  cases hpool : s.pool ⟨fd, n⟩ with
  | none => simp [view, flushAllPages, hpool]
  | some x => simp [view, flushAllPages, hpool]

end PageStore

/-! ### Users of pages -/

/-- A page in the pool has the users that the store counts, and the store lists it; the other pages
that it lists have none. -/
structure SameUsers (fd : Int) (b : BufferPoolManager DiskManager) (s : PageStore PageData) :
    Prop where
  resident : ∀ {n f}, b.pageTable ⟨fd, n⟩ = some f →
    s.pool ⟨fd, n⟩ ≠ none ∧ s.pinCount ⟨fd, n⟩ = (b.pages f).pinCount
  absent : ∀ {n}, b.pageTable ⟨fd, n⟩ = none → s.pool ⟨fd, n⟩ = none ∨ s.pinCount ⟨fd, n⟩ = 0

/-- Two stores list and count alike, except at one page. -/
def PageStore.AlikeBut (s s' : PageStore PageData) (p : PageId) : Prop :=
  ∀ q, q ≠ p → (s.pool q = none → s'.pool q = none) ∧ (s.pool q ≠ none → s'.pool q ≠ none) ∧
    s'.pinCount q = s.pinCount q

namespace SameUsers

variable {fd : Int} {b b' : BufferPoolManager DiskManager} {s s' : PageStore PageData} {p : PageId}
  {f : Nat}

/-- A page in the pool other than the one that changes. -/
theorem listed (h : SameUsers fd b s) (halike : s.AlikeBut s' p) {n : Int} {g : Nat}
    (hq : (⟨fd, n⟩ : PageId) ≠ p) (hg : b.pageTable ⟨fd, n⟩ = some g) :
    s'.pool ⟨fd, n⟩ ≠ none ∧ s'.pinCount ⟨fd, n⟩ = (b.pages g).pinCount := by
  obtain ⟨-, hlisted, hcount⟩ := halike _ hq
  rw [hcount]
  exact ⟨hlisted (h.resident hg).1, (h.resident hg).2⟩

/-- A page out of the pool other than the one that changes. -/
theorem unused (h : SameUsers fd b s) (halike : s.AlikeBut s' p) {n : Int}
    (hq : (⟨fd, n⟩ : PageId) ≠ p) (hn : b.pageTable ⟨fd, n⟩ = none) :
    s'.pool ⟨fd, n⟩ = none ∨ s'.pinCount ⟨fd, n⟩ = 0 := by
  obtain ⟨hnone, -, hcount⟩ := halike _ hq
  rw [hcount]
  exact (h.absent hn).imp_left hnone

/-- A page of another file changes. -/
theorem other (h : SameUsers fd b s) (halike : s.AlikeBut s' p) (hfd : p.fd ≠ fd) :
    SameUsers fd b s' := by
  have hne : ∀ n, (⟨fd, n⟩ : PageId) ≠ p := fun n e => hfd (congrArg PageId.fd e).symm
  exact ⟨fun hg => h.listed halike (hne _) hg, fun hn => h.unused halike (hne _) hn⟩

/-- The users of one page in the pool change. -/
theorem setFrame (h : SameUsers fd b s) (hI : FrameInv b) (hp : b.pageTable p = some f)
    (htable : b'.pageTable = b.pageTable)
    (hpages : ∀ g, g ≠ f → (b'.pages g).pinCount = (b.pages g).pinCount) (halike : s.AlikeBut s' p)
    (hself : p.fd = fd → s'.pool p ≠ none ∧ s'.pinCount p = (b'.pages f).pinCount) :
    SameUsers fd b' s' := by
  constructor
  · intro n g hg
    rw [htable] at hg
    by_cases hq : (⟨fd, n⟩ : PageId) = p
    · subst hq
      rw [hp] at hg
      obtain rfl := Option.some.inj hg
      exact hself rfl
    · have hgf : g ≠ f := by
        rintro rfl
        exact hq (hI.table_injective hg hp)
      rw [hpages g hgf]
      exact h.listed halike hq hg
  · intro n hn
    rw [htable] at hn
    have hq : (⟨fd, n⟩ : PageId) ≠ p := by
      rintro rfl
      rw [hp] at hn
      cases hn
    exact h.unused halike hq hn

/-- A frame is given to a page; the page that was there has no users. -/
theorem assign (h : SameUsers fd b s) (hI : FrameInv b) (hav : b.Available f)
    (hp : b.pageTable p = none) {data : PageData} {dm : DiskManager} (halike : s.AlikeBut s' p)
    (hself : p.fd = fd → s'.pool p ≠ none ∧ s'.pinCount p = 1) :
    SameUsers fd (b.assign f p data dm) s' := by
  have hpages : ∀ g, ((b.assign f p data dm).pages g).pinCount =
      if g = f then 1 else (b.pages g).pinCount := by
    intro g
    by_cases hg : g = f
    · simp [BufferPoolManager.assign, hg]
    · simp [BufferPoolManager.assign, hg]
  constructor
  · intro n g hg
    rcases (table_assign_iff hav hI hp _ g).mp hg with ⟨rfl, rfl⟩ | ⟨hold, hgf⟩
    · rw [hpages, if_pos rfl]
      exact hself rfl
    · have hq : (⟨fd, n⟩ : PageId) ≠ p := by
        rintro rfl
        rw [hp] at hold
        cases hold
      rw [hpages, if_neg hgf]
      exact h.listed halike hq hold
  · intro n hn
    have hq : (⟨fd, n⟩ : PageId) ≠ p := by
      rintro rfl
      rw [(table_assign_iff hav hI hp _ f).mpr (.inl ⟨rfl, rfl⟩)] at hn
      cases hn
    cases hold : b.pageTable ⟨fd, n⟩ with
    | none => exact h.unused halike hq hold
    | some g =>
      -- the page was in the frame that is given away
      obtain rfl : g = f := by
        by_contra hgf
        rw [(table_assign_iff hav hI hp _ g).mpr (.inr ⟨hold, hgf⟩)] at hn
        cases hn
      exact .inr ((h.listed halike hq hold).2.trans (hav.pinCount_eq_zero hI))

end SameUsers

/-! ### Calls -/

/-- The store shows the last bytes of every page of the file, counts the users of the pages, and has
the page counter of the file. -/
structure PoolClient.Shows (fd : Int) (c : PoolClient) (s : PageStore PageData) : Prop where
  view : ∀ n, s.view ⟨fd, n⟩ = c.last ⟨fd, n⟩
  users : SameUsers fd c.bpm s
  counter : s.fd2pageno fd = c.bpm.diskManager.fd2pageno fd

section Steps

variable {dm₀ : DiskManager} {live : Int → Prop} {fd : Int} {c c' : PoolClient}
  {s : PageStore PageData} {p : PageId} {f : Nat}

theorem PageStore.alikeBut_fetchPage {s s' : PageStore PageData} {data : PageData}
    (h : s.fetchPage p = some (data, s')) : s.AlikeBut s' p := by
  obtain ⟨x, -, heq⟩ := Option.map_eq_some_iff.mp h
  cases heq
  intro q hq
  simp [hq]

theorem PageStore.alikeBut_setPage (s : PageStore PageData) (p : PageId) (data : PageData) :
    s.AlikeBut (s.setPage p data) p := by
  intro q hq
  simp [setPage, hq]

theorem PageStore.alikeBut_newPage (s : PageStore PageData) (fd : Int) :
    s.AlikeBut (s.newPage zeroPage fd) ⟨fd, s.fd2pageno fd⟩ := by
  intro q hq
  simp [newPage, hq]

theorem PageStore.AlikeBut.refl (s : PageStore PageData) (p : PageId) : s.AlikeBut s p :=
  fun _ _ => ⟨id, id, rfl⟩

theorem readPage_quiet {dm dm' : DiskManager} {buf data : PageData} {ok : Bool}
    (h : PageDevice.readPage dm p buf = (ok, data, dm')) : dm'.fd2pageno = dm.fd2pageno := by
  have heq : dm' = (dm.readPage p.fd p.pageNo buf).2.2 := (congrArg (fun r => r.2.2) h).symm
  rw [heq]
  rfl

/-- What a fetch does to the users and the counter. -/
theorem PoolClient.Shows.fetchPage_users (h : c.Shows fd s) (hI : FrameInv c.bpm)
    {s' : PageStore PageData} (halike : s.AlikeBut s' p)
    (hself : p.fd = fd → s'.pool p ≠ none ∧
      s'.pinCount p = match s.pool p with
        | some _ => s.pinCount p + 1
        | none => 1)
    {r : Option Nat} {b' : BufferPoolManager DiskManager}
    (hr : fetchPage p c.bpm = .ok r b') (hframe : p.fd = fd → r ≠ none) :
    SameUsers fd b' s' ∧ b'.diskManager.fd2pageno = c.bpm.diskManager.fd2pageno := by
  rcases fetchPage_cases hI hr with ⟨f, hf, -, rfl⟩ | ⟨hp, -, -, rfl, rfl⟩ |
    ⟨hp, f, buf, data, d₁, d, hav, -, hw, hread, rfl⟩
  · refine ⟨h.users.setFrame hI hf rfl (fun g hg => ?_) halike fun hfd => ?_, rfl⟩
    · simp [pinFrame, setPage, hg]
    · obtain ⟨hlisted, hcount⟩ := hself hfd
      subst hfd
      obtain ⟨hold, hpin⟩ := h.users.resident hf
      refine ⟨hlisted, ?_⟩
      obtain ⟨x, hx⟩ := Option.ne_none_iff_exists'.mp hold
      rw [hcount, hx]
      simp [pinFrame, setPage, hpin]
  · -- no frame: a page of another file
    exact ⟨h.users.other halike fun e => hframe e rfl, rfl⟩
  · refine ⟨h.users.assign hI hav hp halike fun hfd => ?_, ?_⟩
    · obtain ⟨hlisted, hcount⟩ := hself hfd
      subst hfd
      refine ⟨hlisted, ?_⟩
      rw [hcount]
      rcases h.users.absent hp with hnone | hzero
      · rw [hnone]
      · cases hpool : s.pool p with
        | none => rfl
        | some x => exact congrArg (· + 1) hzero
    · exact (readPage_quiet hread).trans (writeBack_quiet hw).2

/-- A page of the file is fetched. -/
theorem PoolClient.Shows.fetchPage (h : c.Shows fd s) (hinv : c.Inv dm₀ live)
    (hstep : ClientStep c (.fetchPage p) c') (hfd : p.fd = fd) {a : StoreAnswer}
    (ha : c.Answers (.fetchPage p) a) : ∃ s', s.Answers (.fetchPage p) a s' ∧ c'.Shows fd s' := by
  obtain ⟨halloc, r, b', hr, rfl⟩ := hstep
  obtain ⟨f, b'', hr', rfl⟩ := ha
  rw [hr] at hr'
  cases hr'
  subst hfd
  obtain ⟨x, hx⟩ := Option.ne_none_iff_exists'.mp halloc
  have hdata := (fetchPage_served hinv halloc hr).2.2 f rfl
  rw [hx] at hdata
  obtain rfl := Option.some.inj hdata
  have hview : s.view p = some (b'.pages f).data := (h.view p.pageNo).trans hx
  obtain ⟨s', hfetch, hkeep, hcounter, -⟩ := PageStore.fetchPage_of_view hview
  refine ⟨s', ⟨_, hfetch, rfl⟩, ?_⟩
  have hself : s'.pool p ≠ none ∧ s'.pinCount p = match s.pool p with
      | some _ => s.pinCount p + 1
      | none => 1 := by
    obtain ⟨y, -, heq⟩ := Option.map_eq_some_iff.mp hfetch
    cases heq
    refine ⟨by simp, (Function.update_self ..).trans ?_⟩
    cases s.pool p with
    | none => rfl
    | some x => rfl
  obtain ⟨husers, hdm⟩ := h.fetchPage_users hinv.frames (PageStore.alikeBut_fetchPage hfetch)
    (fun _ => hself) hr (fun _ => nofun)
  exact ⟨fun n => (hkeep _).trans (h.view n), husers, by rw [hcounter, h.counter, hdm]⟩

/-- A page of the file is created. -/
theorem PoolClient.Shows.newPage (h : c.Shows fd s) (hinv : c.Inv dm₀ live) (hlive : live fd)
    (hstep : ClientStep c (.newPage fd) c') {a : StoreAnswer} (ha : c.Answers (.newPage fd) a) :
    ∃ s', s.Answers (.newPage fd) a s' ∧ c'.Shows fd s' := by
  obtain ⟨halloc, r, b', hr, rfl⟩ := hstep
  obtain ⟨f, p, b'', hr', rfl⟩ := ha
  rw [hr] at hr'
  cases hr'
  have hfr := halloc.fresh hinv hlive
  have hnew := hfr.table hinv.frames
  rcases newPage_cases hinv.frames hfr hr with ⟨-, -, hnone, -⟩ | ⟨g, d, hav, heq, hw, rfl⟩
  · cases hnone
  cases heq
  have hno : (PageDevice.allocatePage c.bpm.diskManager fd).1 = s.fd2pageno fd := h.counter.symm
  rw [hno] at hnew ⊢
  refine ⟨_, ⟨rfl, rfl⟩, fun n => ?_, ?_, ?_⟩
  · rw [PageStore.view_newPage]
    change _ = Function.update c.last ⟨fd, s.fd2pageno fd⟩ (some zeroPage) ⟨fd, n⟩
    split_ifs with heq
    · rw [heq, Function.update_self]
    · rw [Function.update_of_ne heq, h.view]
  · refine h.users.assign hinv.frames hav hnew (s.alikeBut_newPage fd) fun _ => ?_
    simp [PageStore.newPage]
  · show (s.newPage zeroPage fd).fd2pageno fd = d.fd2pageno fd
    rw [(writeBack_quiet hw).2]
    show Function.update s.fd2pageno fd (s.fd2pageno fd + 1) fd =
      Function.update c.bpm.diskManager.fd2pageno fd (c.bpm.diskManager.fd2pageno fd + 1) fd
    rw [Function.update_self, Function.update_self, h.counter]

/-- A page of the file is unpinned. -/
theorem PoolClient.Shows.unpinPage (h : c.Shows fd s) (hI : FrameInv c.bpm) {isDirty : Bool}
    (hstep : ClientStep c (.unpinPage p isDirty) c') (hfd : p.fd = fd) {a : StoreAnswer}
    (ha : c.Answers (.unpinPage p isDirty) a) :
    ∃ s', s.Answers (.unpinPage p isDirty) a s' ∧ c'.Shows fd s' := by
  obtain ⟨-, r, b', hr, rfl⟩ := hstep
  obtain ⟨r', b'', hr', rfl⟩ := ha
  rw [hr] at hr'
  cases hr'
  subst hfd
  have hview : ∀ n, (s.unpinPage p).2.view ⟨p.fd, n⟩ = c.last ⟨p.fd, n⟩ := fun n =>
    (s.view_unpinPage p _).trans (h.view n)
  have hcounter : (s.unpinPage p).2.fd2pageno p.fd = c.bpm.diskManager.fd2pageno p.fd := by
    rw [PageStore.fd2pageno_unpinPage, h.counter]
  rcases unpinPage_cases hr with ⟨rfl, rfl, hzero⟩ | ⟨f, hf, hpos, rfl, rfl⟩
  · -- the store finds no user either
    have hstore : s.unpinPage p = (false, s) := by
      unfold PageStore.unpinPage
      cases hpool : s.pool p with
      | none => rfl
      | some x =>
        have hcount : s.pinCount p = 0 := by
          cases hf : c.bpm.pageTable p with
          | some f => exact (h.users.resident hf).2.trans (hzero f hf)
          | none =>
            rcases h.users.absent hf with hnone | hzero
            · exact absurd (hpool.symm.trans hnone) nofun
            · exact hzero
        simp [hcount]
    refine ⟨_, ⟨by rw [hstore], rfl⟩, hview, ?_, hcounter⟩
    rw [hstore]
    exact h.users
  · obtain ⟨hlisted, hcount⟩ := h.users.resident hf
    obtain ⟨x, hx⟩ := Option.ne_none_iff_exists'.mp hlisted
    have hx : s.pool p = some x := hx
    have hcount : s.pinCount p = (c.bpm.pages f).pinCount := hcount
    have hne : s.pinCount p ≠ 0 := by omega
    have hstore : s.unpinPage p =
        (true, { s with pinCount := Function.update s.pinCount p (s.pinCount p - 1) }) := by
      simp [PageStore.unpinPage, hx, hne]
    refine ⟨_, ⟨by rw [hstore], rfl⟩, hview, ?_, hcounter⟩
    rw [hstore]
    refine h.users.setFrame hI hf rfl (fun g hg => ?_) (fun q hq => ?_) fun _ => ?_
    · simp [unpinFrame, setPage, hg]
    · simp [hq]
    · simp [unpinFrame, setPage, hx, hcount]

/-- A page of the file is written. -/
theorem PoolClient.Shows.write (h : c.Shows fd s) (hI : FrameInv c.bpm) {data : PageData}
    (hstep : ClientStep c (.write p data) c') (hfd : p.fd = fd) :
    c'.Shows fd (s.setPage p data) := by
  obtain ⟨f, hf, -, rfl⟩ := hstep
  subst hfd
  refine ⟨fun n => ?_, ?_, h.counter⟩
  · rw [PageStore.view_setPage]
    change _ = Function.update c.last p (some data) ⟨p.fd, n⟩
    split_ifs with heq
    · rw [heq, Function.update_self]
    · rw [Function.update_of_ne heq, h.view]
  · refine h.users.setFrame hI hf rfl (fun g hg => ?_) (s.alikeBut_setPage p data) fun _ => ?_
    · simp [setData, BufferPoolManager.setPage, hg]
    · obtain ⟨-, hcount⟩ := h.users.resident hf
      simpa [PageStore.setPage, setData, BufferPoolManager.setPage] using hcount

/-- A frame is written out. -/
theorem SameUsers.cleanFrame {b : BufferPoolManager DiskManager} (husers : SameUsers fd b s)
    (hcounter : s.fd2pageno fd = b.diskManager.fd2pageno fd) (f : Nat) {dm : DiskManager}
    (hdm : dm.fd2pageno = b.diskManager.fd2pageno) : SameUsers fd (b.cleanFrame f dm) s ∧
      s.fd2pageno fd = (b.cleanFrame f dm).diskManager.fd2pageno fd := by
  have hpages : ∀ g, ((b.cleanFrame f dm).pages g).pinCount = (b.pages g).pinCount := by
    intro g
    by_cases hg : g = f
    · simp [BufferPoolManager.cleanFrame, setPage, hg]
    · simp [BufferPoolManager.cleanFrame, setPage, hg]
  refine ⟨⟨fun hf => ?_, husers.absent⟩, hcounter.trans (congrFun hdm.symm fd)⟩
  rw [hpages]
  exact husers.resident hf

/-- A page of any file is flushed. -/
theorem PoolClient.Shows.flushPage (h : c.Shows fd s) (hstep : ClientStep c (.flushPage p) c') :
    c'.Shows fd s := by
  obtain ⟨r, b', hr, rfl⟩ := hstep
  rcases flushPage_cases hr with ⟨-, -, rfl⟩ | ⟨f, d, -, hw, -, rfl⟩
  · exact h
  · obtain ⟨husers, hcounter⟩ := h.users.cleanFrame h.counter f (writePage_quiet hw).2
    exact ⟨h.view, husers, hcounter⟩

theorem PoolClient.Shows.flushFrames (h : c.Shows fd s) {fd' : Int} {u : Unit}
    {b' : BufferPoolManager DiskManager} (hr : flushAllPages fd' c.bpm = .ok u b') :
    SameUsers fd b' s ∧ s.fd2pageno fd = b'.diskManager.fd2pageno fd := by
  refine forM_induct (I := fun b => SameUsers fd b s ∧
    s.fd2pageno fd = b.diskManager.fd2pageno fd) (f := flushFrame fd') ?_ hr ⟨h.users, h.counter⟩
  intro i _ b b'' _ hb hround
  rcases flushFrame_cases hround with ⟨-, rfl⟩ | ⟨d, -, hw, rfl⟩
  · exact hb
  · exact hb.1.cleanFrame hb.2 i (writePage_quiet hw).2

/-- The file is flushed. -/
theorem PoolClient.Shows.flushAllPages (h : c.Shows fd s) (hinv : c.Inv dm₀ live) (hlive : live fd)
    (hstep : ClientStep c (.flushAllPages fd) c') {a : StoreAnswer}
    (ha : c.Answers (.flushAllPages fd) a) :
    ∃ s', s.Answers (.flushAllPages fd) a s' ∧ c'.Shows fd s' := by
  have hfd : live (ClientOp.flushAllPages fd).fd := hlive
  have hserved := (clientStep_served hinv hfd hstep).2.2
  obtain ⟨b', hr, rfl⟩ := hstep
  obtain ⟨b'', hr', rfl⟩ := ha
  rw [hr] at hr'
  cases hr'
  obtain ⟨husers, hcounter⟩ := h.flushFrames hr
  refine ⟨_, ⟨rfl, _, rfl, fun n data hdata => ?_⟩,
    fun n => (s.view_flushAllPages fd n).trans (h.view n), ⟨husers.resident, husers.absent⟩, hcounter⟩
  -- what the store has on disk is what it shows
  have hlast : c.last ⟨fd, n⟩ = some data := by
    rw [← h.view]
    by_cases hn : n = invalidPageId
    · cases hpool : s.pool ⟨fd, n⟩ with
      | none =>
        rw [PageStore.view_of_pool_none hpool]
        simpa [PageStore.flushAllPages, hpool] using hdata
      | some x =>
        have hlast := (h.view n).symm.trans (PageStore.view_of_pool hpool)
        have hrange : 0 ≤ n := (hinv.inRange hlast).1
        rw [hn] at hrange
        exact absurd hrange (by decide)
    · rw [← s.disk_flushAllPages fd hn]
      exact hdata
  exact hserved ⟨fd, n⟩ data rfl hlast

/-- A call on another file. -/
theorem PoolClient.Shows.other (h : c.Shows fd s) (hinv : c.Inv dm₀ live) {op : ClientOp}
    (hlive : live op.fd) (hfd : op.fd ≠ fd) (hstep : ClientStep c op c') : c'.Shows fd s := by
  have hne : ∀ {q : PageId} (n : Int), q.fd ≠ fd → (⟨fd, n⟩ : PageId) ≠ q :=
    fun n hq e => hq (congrArg PageId.fd e).symm
  cases op with
  | newPage fd' =>
    obtain ⟨halloc, r, b', hr, rfl⟩ := hstep
    have hfr := halloc.fresh hinv hlive
    rcases newPage_cases hinv.frames hfr hr with ⟨-, -, rfl, rfl⟩ | ⟨f, d, hav, rfl, hw, rfl⟩
    · exact h
    · refine ⟨fun n => ?_, ?_, ?_⟩
      · rw [h.view]
        exact (Function.update_of_ne (hne n hfd) ..).symm
      · exact h.users.assign hinv.frames hav (hfr.table hinv.frames) (.refl s _)
          fun e => absurd e hfd
      · show s.fd2pageno fd = d.fd2pageno fd
        rw [(writeBack_quiet hw).2, h.counter]
        exact (Function.update_of_ne (Ne.symm hfd) ..).symm
  | fetchPage q =>
    obtain ⟨halloc, r, b', hr, rfl⟩ := hstep
    obtain ⟨husers, hdm⟩ := h.fetchPage_users hinv.frames (.refl s q) (fun e => absurd e hfd) hr
      fun e => absurd e hfd
    exact ⟨h.view, husers, h.counter.trans (congrFun hdm.symm fd)⟩
  | unpinPage q isDirty =>
    obtain ⟨-, r, b', hr, rfl⟩ := hstep
    rcases unpinPage_cases hr with ⟨-, rfl, -⟩ | ⟨f, hf, -, -, rfl⟩
    · exact ⟨h.view, h.users, h.counter⟩
    · refine ⟨h.view, ?_, h.counter⟩
      refine h.users.setFrame hinv.frames hf rfl (fun g hg => ?_) (.refl s q) fun e => absurd e hfd
      simp [unpinFrame, setPage, hg]
  | flushPage q => exact h.flushPage hstep
  | flushAllPages fd' =>
    obtain ⟨b', hr, rfl⟩ := hstep
    obtain ⟨husers, hcounter⟩ := h.flushFrames hr
    exact ⟨h.view, husers, hcounter⟩
  | write q data =>
    obtain ⟨f, hf, -, rfl⟩ := hstep
    refine ⟨fun n => ?_, ?_, h.counter⟩
    · rw [h.view]
      exact (Function.update_of_ne (hne n hfd) ..).symm
    · refine h.users.setFrame hinv.frames hf rfl (fun g hg => ?_) (.refl s q) fun e => absurd e hfd
      simp [setData, setPage, hg]

/-- **Each call is a call of the store** with the same answer. -/
theorem answerStep_shows (h : c.Shows fd s) (hinv : c.Inv dm₀ live)
    {e : ClientOp × StoreAnswer} (hlive : live e.1.fd) (hstep : c.AnswerStep fd e c') :
    ∃ s', s.Step fd e s' ∧ c'.Shows fd s' := by
  obtain ⟨op, a⟩ := e
  obtain ⟨hclient, ha⟩ := hstep
  unfold PageStore.Step
  by_cases hfd : op.fd = fd
  · simp only [if_pos hfd]
    specialize ha hfd
    cases op with
    | newPage fd' =>
      obtain rfl : fd' = fd := hfd
      exact h.newPage hinv hlive hclient ha
    | fetchPage q => exact h.fetchPage hinv hclient hfd ha
    | unpinPage q isDirty => exact h.unpinPage hinv.frames hclient hfd ha
    | flushPage q => exact ⟨s, ⟨ha, rfl⟩, h.flushPage hclient⟩
    | flushAllPages fd' =>
      obtain rfl : fd' = fd := hfd
      exact h.flushAllPages hinv hlive hclient ha
    | write q data => exact ⟨_, ⟨ha, rfl⟩, h.write hinv.frames hclient hfd⟩
  · simp only [if_neg hfd]
    exact ⟨s, rfl, h.other hinv hlive hfd hclient⟩

end Steps

/-- The store of a file before any of its pages is in the pool. -/
def PageStore.start (fd : Int) (dm : DiskManager) (last : PageId → Option PageData) :
    PageStore PageData :=
  ⟨fun _ => none, fun _ => 0, fun n => last ⟨fd, n⟩, dm.fd2pageno⟩

/-- **The pool serves the handles.**  For every pool size and every run of clients of any files that
keep the contract of the pool, with any evictions: when each call on the file open under `fd` finds a
frame, there is a run of the store with the same answers, and after every call the store shows the
last bytes and the users of every page of the file. -/
theorem pool_serves_handles (fd : Int) (poolSize : Nat) (fd₀ : Nat → Int) (dm : DiskManager)
    (hdm : dm.DistinctFiles) (last : PageId → Option PageData)
    (hlast : ∀ p data, last p = some data → p.InRange ∧ dm.contents p = some data)
    (run : List ((ClientOp × StoreAnswer) × PoolClient))
    (hrun : Run (PoolClient.AnswerStep fd) ⟨.new poolSize fd₀ dm, last, fun _ => false⟩ run) :
    ∃ stores : List ((ClientOp × StoreAnswer) × PageStore PageData),
      Run (PageStore.Step fd) (.start fd dm last) stores ∧
        List.Forall₂ (fun e e' => e'.1 = e.1 ∧ e.2.Shows fd e'.2) run stores := by
  have hinv : PoolClient.Inv dm (fun _ => True) ⟨.new poolSize fd₀ dm, last, fun _ => false⟩ :=
    PoolInv.new hdm hlast (fun _ _ _ => trivial) poolSize fd₀
  have hshows : PoolClient.Shows fd ⟨.new poolSize fd₀ dm, last, fun _ => false⟩
      (.start fd dm last) :=
    ⟨fun _ => rfl, ⟨nofun, fun _ => .inl rfl⟩, rfl⟩
  have hstep : ∀ (c : PoolClient) (s : PageStore PageData) (e : ClientOp × StoreAnswer)
      (c' : PoolClient), c.Inv dm (fun _ => True) ∧ c.Shows fd s → c.AnswerStep fd e c' →
      ∃ s', s.Step fd (id e) s' ∧ c'.Inv dm (fun _ => True) ∧ c'.Shows fd s' := by
    rintro c s e c' ⟨hinv, h⟩ hanswer
    obtain ⟨s', hs, h'⟩ := answerStep_shows h hinv trivial hanswer
    exact ⟨s', hs, (clientStep_served hinv trivial hanswer.1).1, h'⟩
  obtain ⟨stores, hstores, hall⟩ := hrun.simulates hstep ⟨hinv, hshows⟩
  exact ⟨stores, hstores, hall.imp fun _ _ h => ⟨h.1, h.2.2⟩⟩

/-- In a pool of one frame a page is written, evicted and fetched again. -/
theorem exists_evictRun : ∃ (run : List ((ClientOp × StoreAnswer) × PoolClient)) (data : PageData),
    Run (PoolClient.AnswerStep 3) ⟨.new 1 (fun _ => 0) oneFile, fun _ => none, fun _ => false⟩ run ∧
      run.map Prod.fst =
        [(.newPage 3, .created 0), (.write ⟨3, 0⟩ fun _ => 7, .done),
          (.unpinPage ⟨3, 0⟩ true, .bool true), (.newPage 3, .created 1),
          (.unpinPage ⟨3, 1⟩ true, .bool true), (.fetchPage ⟨3, 0⟩, .page data)] ∧ data 0 = 7 :=
  ⟨[((.newPage 3, .created 0), _), ((.write ⟨3, 0⟩ fun _ => 7, .done), _),
      ((.unpinPage ⟨3, 0⟩ true, .bool true), _), ((.newPage 3, .created 1), _),
      ((.unpinPage ⟨3, 1⟩ true, .bool true), _), ((.fetchPage ⟨3, 0⟩, .page _), _)], _,
    .cons ⟨⟨⟨⟨by decide, by decide⟩, rfl⟩, _, _, rfl, rfl⟩, fun _ => ⟨_, _, _, rfl, rfl⟩⟩
      (.cons ⟨⟨0, rfl, by decide, rfl⟩, fun _ => rfl⟩
        (.cons ⟨⟨fun _ _ _ => Or.inl rfl, _, _, rfl, rfl⟩, fun _ => ⟨_, _, rfl, rfl⟩⟩
          (.cons ⟨⟨⟨⟨by decide, by decide⟩, by decide⟩, _, _, rfl, rfl⟩,
              fun _ => ⟨_, _, _, rfl, rfl⟩⟩
            (.cons ⟨⟨fun _ _ _ => Or.inl rfl, _, _, rfl, rfl⟩, fun _ => ⟨_, _, rfl, rfl⟩⟩
              (.cons ⟨⟨by decide, _, _, rfl, rfl⟩, fun _ => ⟨_, _, rfl, rfl⟩⟩ (.nil _)))))),
    rfl, rfl⟩

/-- The store has the page all the time. -/
theorem pool_serves_handles_evict :
    ∃ (stores : List ((ClientOp × StoreAnswer) × PageStore PageData)) (data : PageData),
      Run (PageStore.Step 3) (.start 3 oneFile fun _ => none) stores ∧
      stores.map Prod.fst =
        [(.newPage 3, .created 0), (.write ⟨3, 0⟩ fun _ => 7, .done),
          (.unpinPage ⟨3, 0⟩ true, .bool true), (.newPage 3, .created 1),
          (.unpinPage ⟨3, 1⟩ true, .bool true), (.fetchPage ⟨3, 0⟩, .page data)] ∧ data 0 = 7 := by
  obtain ⟨run, data, hrun, hlabels, hdata⟩ := exists_evictRun
  obtain ⟨stores, hstores, hall⟩ :=
    pool_serves_handles 3 1 (fun _ => 0) oneFile oneFile_distinctFiles (fun _ => none) (by simp) run
      hrun
  refine ⟨stores, data, hstores, ?_, hdata⟩
  rw [← hlabels]
  clear hlabels hrun hstores
  induction hall with
  | nil => rfl
  | cons h _ ih => rw [List.map_cons, List.map_cons, h.1, ih]

end Rucbase
