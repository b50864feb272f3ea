import Rucbase.Index.Equiv.NodeSearch
import Rucbase.Index.NodeCalls
import Rucbase.Lib.Cells
import Rucbase.Lib.Does

/-!
# The bytes of a node show its page

`shown hdr decode d` is the page that the bytes `d` of a node show: the fields of its header, and its
slots as far as the file header says that there are any.  A write into the header or into the slots
changes what it should and nothing else (`shownBy_store_field`, `shownBy_store_keys`,
`shownBy_store_rids`), and with it each method of `IxNodeHandle` does on the bytes what the method of
the same name does on `IxPage` (`Does (shown hdr decode)`), as long as the slots that it touches
exist.
-/

namespace Rucbase

open IxNodeHandle EStateM

attribute [ext] IxPage

/-! ### Where the slots are -/

namespace IxFileHdr

/-- `col_len`, the bytes of a key. -/
abbrev width (hdr : IxFileHdr) : Nat := hdr.colLen.toNat

/-- `btree_order + 1`, the slots of a node. -/
abbrev slots (hdr : IxFileHdr) : Nat := (hdr.btreeOrder + 1).toNat

/-- Where `rids` points. -/
def ridsBase (hdr : IxFileHdr) : Int := ixPageHdrSize + hdr.keysSize

/-- The keys and the rids lie one after the other, and inside of the page. -/
structure LaidOut (hdr : IxFileHdr) : Prop where
  colLen : 0 ≤ hdr.colLen
  btreeOrder : 0 ≤ hdr.btreeOrder
  keysSize : hdr.keysSize = (hdr.btreeOrder + 1) * hdr.colLen
  fits : ixPageHdrSize + (hdr.btreeOrder + 1) * (hdr.colLen + ridSize) ≤ pageSize

/-- `create_index` lays nodes out so. -/
theorem laidOut_init {type : ColType} {colLen : Int} (h0 : 0 ≤ colLen) (h : colLen ≤ ixMaxColLen) :
    (IxFileHdr.init type colLen).LaidOut := by
  have horder : (IxFileHdr.init type colLen).btreeOrder + 1 = 4072 / (colLen + 8) := by
    show (4096 - 24) / (colLen + 8) - 1 + 1 = 4072 / (colLen + 8)
    rw [Int.sub_add_cancel]
    rfl
  have hmax : colLen ≤ 512 := h
  refine ⟨h0, ?_, rfl, ?_⟩
  · have hle : (1 : Int) ≤ 4072 / (colLen + 8) := by
      rw [Int.le_ediv_iff_mul_le (by omega)]
      omega
    omega
  · rw [horder]
    have hmul : 4072 / (colLen + 8) * (colLen + 8) ≤ 4072 := Int.ediv_mul_le _ (by omega)
    show (24 : Int) + 4072 / (colLen + 8) * (colLen + 8) ≤ 4096
    omega

variable {hdr : IxFileHdr} (h : hdr.LaidOut)
include h

theorem LaidOut.width_eq : (hdr.width : Int) = hdr.colLen := Int.toNat_of_nonneg h.colLen

theorem LaidOut.slots_eq : (hdr.slots : Int) = hdr.btreeOrder + 1 :=
  Int.toNat_of_nonneg (by have := h.btreeOrder; omega)

/-- The rids start where the keys end. -/
theorem LaidOut.ridsBase_eq : hdr.ridsBase = ixPageHdrSize + hdr.slots * hdr.width := by
  rw [ridsBase, h.keysSize, h.width_eq, h.slots_eq]

/-- The rids end inside of the page. -/
theorem LaidOut.ridsBase_add_le : hdr.ridsBase + hdr.slots * ridSize ≤ pageSize := by
  have hfits := h.fits
  rw [← h.width_eq, ← h.slots_eq, Int.mul_add] at hfits
  rw [h.ridsBase_eq]
  omega

/-- Some keys in a row. -/
theorem LaidOut.keys_le {p n : Nat} (hn : p + n ≤ hdr.slots) :
    (ixPageHdrSize : Int) + p * hdr.width + (n * hdr.width : Nat) ≤ hdr.ridsBase := by
  have hmul : (p + n) * hdr.width ≤ hdr.slots * hdr.width := Nat.mul_le_mul_right _ hn
  rw [Nat.add_mul] at hmul
  rw [h.ridsBase_eq]
  have hcast : ((p * hdr.width + n * hdr.width : Nat) : Int) ≤ (hdr.slots * hdr.width : Nat) := by
    exact_mod_cast hmul
  push_cast at hcast
  push_cast
  omega

/-- Some rids in a row. -/
theorem LaidOut.rids_le {p n : Nat} (hn : p + n ≤ hdr.slots) :
    hdr.ridsBase + p * ridSize + (n * ridSize : Nat) ≤ pageSize := by
  have hend : hdr.ridsBase + hdr.slots * 8 ≤ 4096 := h.ridsBase_add_le
  show hdr.ridsBase + p * 8 + (n * 8 : Nat) ≤ 4096
  omega

theorem LaidOut.ridsBase_ge : (ixPageHdrSize : Int) ≤ hdr.ridsBase := by
  have := h.keys_le (p := 0) (n := 0) (by omega)
  omega

theorem LaidOut.slots_pos : 0 < hdr.slots := by
  have := h.slots_eq
  have := h.btreeOrder
  omega

theorem LaidOut.slots_le : hdr.slots ≤ 512 := by
  have hend : hdr.ridsBase + hdr.slots * 8 ≤ 4096 := h.ridsBase_add_le
  have hge : 24 ≤ hdr.ridsBase := h.ridsBase_ge
  omega

end IxFileHdr

/-! ### What the bytes show -/

section View

variable {κ : Type}

/-- The page with `n` keys from slot `p` on changed. -/
def IxPage.putKeys (page : IxPage κ) (p n : Nat) (key : Nat → κ) : IxPage κ :=
  { page with keys := overwrite page.keys p n key }

/-- The page with `n` rids from slot `p` on changed. -/
def IxPage.putRids (page : IxPage κ) (p n : Nat) (rid : Nat → Rid) : IxPage κ :=
  { page with rids := overwrite page.rids p n rid }

/-- An `int` of the page header in memory. -/
def fieldOf (mem : Int → UInt8) (field : IxPageHdrField) : Int :=
  intOf (Memory.load mem field.offset 4)

variable (hdr : IxFileHdr) (decode : List UInt8 → κ)

/-- The node that the bytes of a page show.  Behind the last slot there is nothing; the node has the
key of zero bytes there, as a page that was just handed out has it everywhere. -/
def shownBy (mem : Int → UInt8) : IxPage κ where
  parent := fieldOf mem .parent
  numKey := fieldOf mem .numKey
  isLeaf := Memory.load mem 12 1 ≠ [0]
  prevLeaf := fieldOf mem .prevLeaf
  nextLeaf := fieldOf mem .nextLeaf
  keys := fun i =>
    if i < hdr.slots then decode (Memory.cell mem ixPageHdrSize hdr.width i)
    else decode (List.replicate hdr.width 0)
  rids := fun i => if i < hdr.slots then ridOf (Memory.cell mem hdr.ridsBase ridSize i) else ⟨0, 0⟩

/-- The node in a page. -/
def shown (d : PageData) : IxPage κ := shownBy hdr decode d.mem

end View

/-! ### What a write changes -/

section Store

variable {κ : Type} {hdr : IxFileHdr} {decode : List UInt8 → κ} {mem : Int → UInt8} {addr : Int}
  {bytes : List UInt8} {p n : Nat}

theorem fieldOf_store {field : IxPageHdrField} (h : ixPageHdrSize ≤ addr) :
    fieldOf (Memory.store mem addr bytes) field = fieldOf mem field := by
  have h24 : 24 ≤ addr := h
  unfold fieldOf
  rw [Memory.load_store_of_disjoint]
  left
  cases field <;> simp only [IxPageHdrField.offset] <;> omega

/-- What is written behind the header changes the slots only. -/
theorem shownBy_store_slots (h : ixPageHdrSize ≤ addr) :
    shownBy hdr decode (Memory.store mem addr bytes) =
      { shownBy hdr decode mem with
        keys := (shownBy hdr decode (Memory.store mem addr bytes)).keys
        rids := (shownBy hdr decode (Memory.store mem addr bytes)).rids } := by
  have hleaf : Memory.load (Memory.store mem addr bytes) 12 1 = Memory.load mem 12 1 := by
    have h24 : 24 ≤ addr := h
    exact Memory.load_store_of_disjoint (by omega)
  simp only [shownBy, fieldOf_store h, hleaf]

/-- Keys are written. -/
theorem shownBy_store_keys (h : hdr.LaidOut) (hn : p + n ≤ hdr.slots)
    (hlen : bytes.length = n * hdr.width) :
    shownBy hdr decode (Memory.store mem (ixPageHdrSize + p * hdr.width) bytes) =
      (shownBy hdr decode mem).putKeys p n fun j => decode (Memory.chunk bytes hdr.width j) := by
  have hge : ixPageHdrSize ≤ (ixPageHdrSize : Int) + p * hdr.width := by
    have : (0 : Int) ≤ p * hdr.width := Int.mul_nonneg (by omega) (by omega)
    omega
  have hbeside : (ixPageHdrSize : Int) + p * hdr.width + bytes.length ≤ hdr.ridsBase := by
    rw [hlen]
    exact h.keys_le hn
  rw [shownBy_store_slots hge]
  ext i
  iterate 5 rfl
  · simp only [shownBy, IxPage.putKeys, Memory.cell_store hlen, overwrite]
    split_ifs with h1 h2 h3
    · rfl
    · rfl
    · omega
    · rfl
  · simp only [shownBy, IxPage.putKeys]
    split_ifs with hi
    · rw [Memory.cell_store_of_disjoint (.inr hbeside) hi]
    · rfl

/-- Rids are written. -/
theorem shownBy_store_rids (h : hdr.LaidOut) (hn : p + n ≤ hdr.slots)
    (hlen : bytes.length = n * ridSize) :
    shownBy hdr decode (Memory.store mem (hdr.ridsBase + p * ridSize) bytes) =
      (shownBy hdr decode mem).putRids p n fun j => ridOf (Memory.chunk bytes ridSize j) := by
  have hge : hdr.ridsBase ≤ hdr.ridsBase + p * ridSize := by
    show hdr.ridsBase ≤ hdr.ridsBase + p * 8
    omega
  have hbeside : (ixPageHdrSize : Int) + hdr.slots * hdr.width ≤ hdr.ridsBase + p * ridSize := by
    rw [← h.ridsBase_eq]
    exact hge
  rw [shownBy_store_slots (h.ridsBase_ge.trans hge)]
  ext i
  iterate 5 rfl
  · simp only [shownBy, IxPage.putRids]
    split_ifs with hi
    · rw [Memory.cell_store_of_disjoint (.inl hbeside) hi]
    · rfl
  · simp only [shownBy, IxPage.putRids, Memory.cell_store hlen, overwrite]
    split_ifs with h1 h2 h3
    · rfl
    · rfl
    · omega
    · rfl

/-- What is written into the header leaves the slots alone. -/
theorem shownBy_store_header (h : hdr.LaidOut) (hend : addr + bytes.length ≤ ixPageHdrSize) :
    shownBy hdr decode (Memory.store mem addr bytes) =
      { shownBy hdr decode (Memory.store mem addr bytes) with
        keys := (shownBy hdr decode mem).keys
        rids := (shownBy hdr decode mem).rids } := by
  simp only [shownBy, IxPage.mk.injEq, true_and]
  constructor
  · ext i
    split_ifs with hi
    · rw [Memory.cell_store_of_disjoint (.inr hend) hi]
    · rfl
  · ext i
    split_ifs with hi
    · rw [Memory.cell_store_of_disjoint (.inr (hend.trans h.ridsBase_ge)) hi]
    · rfl

theorem length_bytesOf (x : Int) : (bytesOf x).length = 4 := by simp [bytesOf]

theorem intOf_bytesOf {x : Int} (hx : IsInt x) : intOf (bytesOf x) = x := by
  apply bytesInt_intBytes hx
  intro j hj
  simp [bytesOf, hj]

theorem fieldOf_store_self {field : IxPageHdrField} {x : Int} (hx : IsInt x) :
    fieldOf (Memory.store mem field.offset (bytesOf x)) field = x := by
  unfold fieldOf
  rw [← length_bytesOf x, Memory.load_store_self, intOf_bytesOf hx]

theorem fieldOf_store_of_ne {field field' : IxPageHdrField} {x : Int} (h : field' ≠ field) :
    fieldOf (Memory.store mem field.offset (bytesOf x)) field' = fieldOf mem field' := by
  unfold fieldOf
  rw [Memory.load_store_of_disjoint]
  rw [length_bytesOf]
  cases field <;> cases field' <;> first | exact absurd rfl h | decide

/-- A field of the header is written. -/
theorem shownBy_store_field (h : hdr.LaidOut) {field : IxPageHdrField} {x : Int} (hx : IsInt x) :
    shownBy hdr decode (Memory.store mem field.offset (bytesOf x)) =
      (shownBy hdr decode mem).setField field x := by
  have hend : field.offset + (bytesOf x).length ≤ ixPageHdrSize := by
    rw [length_bytesOf]
    cases field <;> decide
  have hleaf : Memory.load (Memory.store mem field.offset (bytesOf x)) 12 1 =
      Memory.load mem 12 1 := by
    apply Memory.load_store_of_disjoint
    rw [length_bytesOf]
    cases field <;> decide
  have hne : ∀ field', field' ≠ field →
      fieldOf (Memory.store mem field.offset (bytesOf x)) field' = fieldOf mem field' :=
    fun _ => fieldOf_store_of_ne
  rw [shownBy_store_header h hend]
  cases field <;>
    simp only [shownBy, IxPage.setField, fieldOf_store_self hx, hleaf, hne, ne_eq, reduceCtorEq,
      not_false_eq_true]

/-- `is_leaf` is written. -/
theorem shownBy_store_leaf (h : hdr.LaidOut) (isLeaf : Bool) :
    shownBy hdr decode (Memory.store mem 12 [if isLeaf then 1 else 0]) =
      { shownBy hdr decode mem with isLeaf } := by
  have hload : Memory.load (Memory.store mem 12 [if isLeaf then 1 else 0]) 12 1 =
      [if isLeaf then 1 else 0] := Memory.load_store_self mem 12 [if isLeaf then 1 else 0]
  have hfield : ∀ field, fieldOf (Memory.store mem 12 [if isLeaf then 1 else 0]) field =
      fieldOf mem field := by
    intro field
    unfold fieldOf
    rw [Memory.load_store_of_disjoint]
    rw [List.length_singleton]
    cases field <;> decide
  rw [shownBy_store_header h (by rw [List.length_singleton]; decide)]
  simp only [shownBy, hfield, hload]
  cases isLeaf <;> rfl

theorem ridOf_ridBytes {rid : Rid} (h1 : IsInt rid.pageNo) (h2 : IsInt rid.slotNo) :
    ridOf (ridBytes rid) = rid := by
  have hdrop : (ridBytes rid).drop 4 = bytesOf rid.slotNo :=
    List.drop_left' (length_bytesOf rid.pageNo)
  have hint : intOf (ridBytes rid) = rid.pageNo := by
    apply bytesInt_intBytes h1
    intro j hj
    simp [ridBytes, bytesOf, List.getElem?_append, hj]
  rw [ridOf, hdrop, hint, intOf_bytesOf h2]

theorem length_ridBytes (rid : Rid) : (ridBytes rid).length = ridSize := by
  rw [ridBytes, List.length_append, length_bytesOf, length_bytesOf]

end Store

/-! ### Accesses -/

section Access

variable {mem : Int → UInt8} {addr n : Int} {bytes : List UInt8}

theorem mem_of_nonneg {d : PageData} {i : Int} (h : 0 ≤ i) : d.mem i = d.byteAt i.toNat := if_pos h

theorem mem_of_ge {d : PageData} {i : Int} (h : pageSize ≤ i) : d.mem i = 0 := by
  have hge : 4096 ≤ i := h
  rw [mem_of_nonneg (by omega)]
  exact dif_neg (by show ¬i.toNat < 4096; omega)

theorem mem_memcpy {d : PageData} (h0 : 0 ≤ addr) (hend : addr + bytes.length ≤ pageSize) :
    (d.memcpy addr.toNat (fun j => bytes.getD j 0) bytes.length).mem =
      Memory.store d.mem addr bytes := by
  have hend' : addr + bytes.length ≤ 4096 := hend
  funext i
  unfold Memory.store
  by_cases hpage : 0 ≤ i ∧ i < 4096
  · have hlt : i.toNat < pageSize := by
      show i.toNat < 4096
      omega
    rw [mem_of_nonneg hpage.1, mem_of_nonneg hpage.1, PageData.byteAt_memcpy hlt]
    split_ifs with h1 h2 h2
    · have hsub : i.toNat - addr.toNat = (i - addr).toNat := by omega
      rw [hsub, List.getElem?_eq_getElem (by omega), Option.getD_some, List.getD_eq_getElem?_getD,
        List.getElem?_eq_getElem (by omega), Option.getD_some]
    · omega
    · rw [List.getElem?_eq_none (by omega), Option.getD_none]
    · rfl
  · -- outside of the page nothing is written, and both sides read 0
    by_cases hneg : 0 ≤ i
    · have hge : (pageSize : Int) ≤ i := by
        show 4096 ≤ i
        omega
      rw [mem_of_ge hge, mem_of_ge hge]
      split_ifs with h1
      · rw [List.getElem?_eq_none (by omega), Option.getD_none]
      · rfl
    · rw [if_neg (by omega)]
      unfold PageData.mem
      rw [if_neg hneg, if_neg hneg]

theorem load_does (h0 : 0 ≤ addr) (hn : 0 ≤ n) (hend : addr + n ≤ pageSize) :
    Does PageData.mem (load addr n) mem (Memory.load mem addr n.toNat) mem := by
  refine .get_bind fun d hd => ?_
  rw [if_pos ⟨h0, hn, hend⟩, hd]
  exact .pure

theorem store_does (h0 : 0 ≤ addr) (hend : addr + bytes.length ≤ pageSize) :
    Does PageData.mem (store addr bytes) mem ⟨⟩ (Memory.store mem addr bytes) := by
  rintro d rfl
  refine ⟨_, ?_, mem_memcpy h0 hend⟩
  unfold store
  rw [EStateM.get_bind_apply, if_pos ⟨h0, hend⟩, EStateM.set_apply]

theorem memmove_does {dest : Int} (h0 : 0 ≤ addr) (hn : 0 ≤ n) (hend : addr + n ≤ pageSize)
    (hdest0 : 0 ≤ dest) (hdest : dest + n ≤ pageSize) :
    Does PageData.mem (memmove dest addr n) mem ⟨⟩
      (Memory.store mem dest (Memory.load mem addr n.toNat)) := by
  refine .bind (load_does h0 hn hend) (store_does hdest0 ?_)
  rw [Memory.length_load]
  omega

end Access

/-! ### The fields and the slots -/

section Slots

variable {κ : Type} {hdr : IxFileHdr} {decode : List UInt8 → κ} {page : IxPage κ}
  {mem : Int → UInt8}

theorem getKey_eq (h : hdr.LaidOut) (i : Nat) :
    getKey hdr i = ixPageHdrSize + i * hdr.width := by
  rw [getKey, h.width_eq]

/-- From what a program does to the bytes to what it does to the node they show. -/
theorem shown_does {α : Type} {x : NodeM α} {a : α} {page' : IxPage κ}
    (hx : ∀ mem, shownBy hdr decode mem = page →
      ∃ mem', Does PageData.mem x mem a mem' ∧ shownBy hdr decode mem' = page') :
    Does (shown hdr decode) x page a page' := Does.coarsen (g := shownBy hdr decode) hx

theorem IxPage.field_mk (f : IxPageHdrField → Int) (isLeaf : Bool) (keys : Nat → κ)
    (rids : Nat → Rid) (field : IxPageHdrField) :
    (IxPage.mk (f .parent) (f .numKey) isLeaf (f .prevLeaf) (f .nextLeaf) keys rids).field field =
      f field := by
  cases field <;> rfl

theorem field_shownBy (field : IxPageHdrField) :
    (shownBy hdr decode mem).field field = fieldOf mem field :=
  IxPage.field_mk (fieldOf mem) _ _ _ field

theorem getField_does (field : IxPageHdrField) :
    Does (shown hdr decode) (getField field) page (page.field field) page := by
  refine shown_does fun mem hmem => ⟨mem, ?_, hmem⟩
  rw [← hmem, field_shownBy]
  refine .bind (load_does ?_ ?_ ?_) .pure
  · cases field <;> decide
  · decide
  · cases field <;> decide

theorem setField_does (h : hdr.LaidOut) (field : IxPageHdrField) {x : Int} (hx : IsInt x) :
    Does (shown hdr decode) (setField field x) page ⟨⟩ (page.setField field x) := by
  refine shown_does fun mem hmem => ⟨_, store_does ?_ ?_, ?_⟩
  · cases field <;> decide
  · rw [length_bytesOf]
    cases field <;> decide
  · rw [shownBy_store_field h hx, hmem]

theorem getSize_does : Does (shown hdr decode) getSize page page.numKey page :=
  getField_does .numKey

theorem setSize_does (h : hdr.LaidOut) {x : Int} (hx : IsInt x) :
    Does (shown hdr decode) (setSize x) page ⟨⟩ { page with numKey := x } :=
  setField_does h .numKey hx

theorem isLeafPage_does : Does (shown hdr decode) isLeafPage page page.isLeaf page := by
  refine shown_does fun mem hmem => ⟨mem, ?_, hmem⟩
  subst hmem
  exact .bind (load_does (by decide) (by decide) (by decide)) .pure

theorem setLeaf_does (h : hdr.LaidOut) (isLeaf : Bool) :
    Does (shown hdr decode) (setLeaf isLeaf) page ⟨⟩ { page with isLeaf } := by
  refine shown_does fun mem hmem => ⟨_, store_does (by decide) ?_, ?_⟩
  · rw [List.length_singleton]
    decide
  · rw [shownBy_store_leaf h, hmem]

/-- The bytes of a key. -/
theorem loadKey_reads (h : hdr.LaidOut) {i : Nat} (hi : i < hdr.slots) :
    Does PageData.mem (loadKey hdr i) mem (Memory.cell mem ixPageHdrSize hdr.width i) mem := by
  have hkeys := h.keys_le (p := i) (n := 1) (by omega)
  have hrids := h.rids_le (p := 0) (n := 0) (by omega)
  have hnonneg : (0 : Int) ≤ i * hdr.width := Int.mul_nonneg (by omega) (by omega)
  unfold loadKey Memory.cell
  rw [getKey_eq h]
  refine load_does ?_ h.colLen ?_
  · show 0 ≤ (24 : Int) + i * hdr.width
    omega
  · rw [← h.width_eq]
    omega

/-- The rid in a slot. -/
theorem loadRid_does (h : hdr.LaidOut) {i : Nat} (hi : i < hdr.slots) :
    Does (shown hdr decode) (loadRid hdr i) page (page.rids i) page := by
  refine shown_does fun mem hmem => ⟨mem, ?_, hmem⟩
  have hrid : page.rids i = ridOf (Memory.cell mem hdr.ridsBase ridSize i) := by
    rw [← hmem]
    exact if_pos hi
  have hge := h.ridsBase_ge
  have hrids := h.rids_le (p := i) (n := 1) (by omega)
  rw [hrid]
  refine .bind (load_does ?_ (by decide) ?_) .pure
  · show 0 ≤ hdr.ridsBase + i * 8
    have hge' : 24 ≤ hdr.ridsBase := hge
    omega
  · exact hrids

theorem valueAt_does (h : hdr.LaidOut) {i : Nat} (hi : i < hdr.slots) :
    Does (shown hdr decode) (valueAt hdr i) page (page.rids i).pageNo page :=
  .bind (loadRid_does h hi) .pure

/-- Cells of keys are written. -/
theorem storeKeys_does (h : hdr.LaidOut) {p n : Nat} {bytes : List UInt8}
    (hn : p + n ≤ hdr.slots) (hlen : bytes.length = n * hdr.width) :
    Does (shown hdr decode) (store (getKey hdr p) bytes) page ⟨⟩
      (page.putKeys p n fun j => decode (Memory.chunk bytes hdr.width j)) := by
  have hkeys := h.keys_le hn
  have hrids := h.rids_le (p := 0) (n := 0) (by omega)
  have hnonneg : (0 : Int) ≤ p * hdr.width := Int.mul_nonneg (by omega) (by omega)
  rw [getKey_eq h]
  refine shown_does fun mem hmem => ⟨_, store_does ?_ ?_, ?_⟩
  · show 0 ≤ (24 : Int) + p * hdr.width
    omega
  · rw [hlen]
    omega
  · rw [shownBy_store_keys h hn hlen, hmem]

/-- Cells of rids are written. -/
theorem storeRids_does (h : hdr.LaidOut) {p n : Nat} {bytes : List UInt8}
    (hn : p + n ≤ hdr.slots) (hlen : bytes.length = n * ridSize) :
    Does (shown hdr decode) (store (getRid hdr p) bytes) page ⟨⟩
      (page.putRids p n fun j => ridOf (Memory.chunk bytes ridSize j)) := by
  have hge : 24 ≤ hdr.ridsBase := h.ridsBase_ge
  have hrids := h.rids_le hn
  refine shown_does fun mem hmem => ⟨_, store_does ?_ ?_, ?_⟩
  · show 0 ≤ hdr.ridsBase + p * 8
    omega
  · rw [hlen]
    exact hrids
  · rw [← hmem]
    exact shownBy_store_rids h hn hlen

theorem putKeys_one (i : Nat) (key : Nat → κ) : page.putKeys i 1 key = page.setKey i (key 0) := by
  rw [IxPage.putKeys, IxPage.setKey, overwrite_one, Int.toNat_natCast]

theorem putRids_one (i : Nat) (rid : Nat → Rid) : page.putRids i 1 rid = page.setRid i (rid 0) := by
  rw [IxPage.putRids, IxPage.setRid, overwrite_one, Int.toNat_natCast]

/-- Keys are copied from a caller's buffer. -/
theorem copyKeys_does (h : hdr.LaidOut) {p n : Nat} {buf : List UInt8} (hn : p + n ≤ hdr.slots)
    (hbuf : n * hdr.width ≤ buf.length) :
    Does (shown hdr decode) (memcpy (getKey hdr p) buf (n * hdr.colLen)) page ⟨⟩
      (page.putKeys p n fun j => decode (Memory.chunk buf hdr.width j)) := by
  have hsize : (n : Int) * hdr.colLen = (n * hdr.width : Nat) := by
    rw [← h.width_eq]
    push_cast
    rfl
  unfold memcpy
  rw [hsize, if_pos ⟨by omega, by omega⟩, Int.toNat_natCast, IxPage.putKeys,
    overwrite_congr fun j hj => congrArg decode (Memory.chunk_take hj).symm]
  exact storeKeys_does h hn (by rw [List.length_take]; omega)

/-- Rids are copied from a caller's buffer. -/
theorem copyRids_does (h : hdr.LaidOut) {p n : Nat} {buf : List UInt8} (hn : p + n ≤ hdr.slots)
    (hbuf : n * ridSize ≤ buf.length) :
    Does (shown hdr decode) (memcpy (getRid hdr p) buf (n * ridSize)) page ⟨⟩
      (page.putRids p n fun j => ridOf (Memory.chunk buf ridSize j)) := by
  have hsize : (n : Int) * ridSize = (n * ridSize : Nat) := (Int.natCast_mul n ridSize).symm
  unfold memcpy
  rw [hsize, if_pos ⟨by omega, by omega⟩, Int.toNat_natCast, IxPage.putRids,
    overwrite_congr fun j hj => congrArg ridOf (Memory.chunk_take hj).symm]
  exact storeRids_does h hn (by rw [List.length_take]; omega)

/-- Keys are moved inside the page. -/
theorem moveKeys_does (h : hdr.LaidOut) {p q n : Nat} (hp : p + n ≤ hdr.slots)
    (hq : q + n ≤ hdr.slots) :
    Does (shown hdr decode) (memmove (getKey hdr q) (getKey hdr p) (n * hdr.colLen)) page ⟨⟩
      (page.putKeys q n fun j => page.keys (p + j)) := by
  have hsize : (n : Int) * hdr.colLen = (n * hdr.width : Nat) := by
    rw [← h.width_eq]
    push_cast
    rfl
  have hrids := h.rids_le (p := 0) (n := 0) (by omega)
  have hkeysp := h.keys_le hp
  have hkeysq := h.keys_le hq
  have hnonneg : ∀ i : Nat, (0 : Int) ≤ i * hdr.width := fun i =>
    Int.mul_nonneg (by omega) (by omega)
  have hp0 := hnonneg p
  have hq0 := hnonneg q
  rw [hsize, getKey_eq h, getKey_eq h]
  refine shown_does fun mem hmem =>
    ⟨_, memmove_does (by omega) (by omega) (by omega) (by omega) (by omega), ?_⟩
  rw [Int.toNat_natCast, shownBy_store_keys h hq Memory.length_load, hmem, IxPage.putKeys,
    IxPage.putKeys, overwrite_congr]
  intro j hj
  rw [Memory.chunk_load hj, ← hmem]
  exact (if_pos (by omega)).symm

/-- Rids are moved inside the page. -/
theorem moveRids_does (h : hdr.LaidOut) {p q n : Nat} (hp : p + n ≤ hdr.slots)
    (hq : q + n ≤ hdr.slots) :
    Does (shown hdr decode) (memmove (getRid hdr q) (getRid hdr p) (n * ridSize)) page ⟨⟩
      (page.putRids q n fun j => page.rids (p + j)) := by
  have hsize : (n : Int) * ridSize = (n * ridSize : Nat) := (Int.natCast_mul n ridSize).symm
  have hge : 24 ≤ hdr.ridsBase := h.ridsBase_ge
  have hridsp := h.rids_le hp
  have hridsq := h.rids_le hq
  have hp0 : 0 ≤ getRid hdr p := by
    show 0 ≤ hdr.ridsBase + p * 8
    omega
  have hq0 : 0 ≤ getRid hdr q := by
    show 0 ≤ hdr.ridsBase + q * 8
    omega
  rw [hsize]
  refine shown_does fun mem hmem => ⟨_, memmove_does hp0 (by omega) hridsp hq0 hridsq, ?_⟩
  rw [Int.toNat_natCast]
  show shownBy hdr decode (Memory.store mem (hdr.ridsBase + q * ridSize) _) = _
  rw [shownBy_store_rids h hq Memory.length_load, hmem, IxPage.putRids, IxPage.putRids,
    overwrite_congr]
  intro j hj
  show ridOf (Memory.chunk (Memory.load mem (hdr.ridsBase + p * ridSize) _) ridSize j) = _
  rw [Memory.chunk_load hj, ← hmem]
  exact (if_pos (by omega)).symm

end Slots

/-! ### Changing a node -/

section Change

variable {κ : Type} {hdr : IxFileHdr} {decode : List UInt8 → κ} {page : IxPage κ}

theorem chunk_zero {bytes : List UInt8} {w : Nat} : Memory.chunk bytes w 0 = bytes.take w := by
  rw [Memory.chunk, Nat.zero_mul, List.drop_zero]

theorem setKey_does (h : hdr.LaidOut) {i : Nat} {key : List UInt8} (hi : i < hdr.slots)
    (hkey : hdr.width ≤ key.length) :
    Does (shown hdr decode) (setKey hdr i key) page ⟨⟩
      (page.setKey i (decode (key.take hdr.width))) := by
  have hdoes : Does (shown hdr decode) (memcpy (getKey hdr i) key ((1 : Nat) * hdr.colLen)) page ⟨⟩
      (page.putKeys i 1 fun j => decode (Memory.chunk key hdr.width j)) :=
    copyKeys_does h hi (by omega)
  rw [putKeys_one, chunk_zero, Int.natCast_one, Int.one_mul] at hdoes
  exact hdoes

theorem setRid_does (h : hdr.LaidOut) {i : Nat} {rid : Rid} (hi : i < hdr.slots)
    (hrid : rid.IsInts) :
    Does (shown hdr decode) (setRid hdr i rid) page ⟨⟩ (page.setRid i rid) := by
  have hdoes : Does (shown hdr decode) (store (getRid hdr i) (ridBytes rid)) page ⟨⟩
      (page.putRids i 1 fun j => ridOf (Memory.chunk (ridBytes rid) ridSize j)) :=
    storeRids_does h hi ((length_ridBytes rid).trans (Nat.one_mul _).symm)
  rw [putRids_one, chunk_zero, List.take_of_length_le (length_ridBytes rid).le,
    ridOf_ridBytes hrid.1 hrid.2] at hdoes
  exact hdoes

/-- `insert_pairs` moves the slots from `pos` on up and fills the gap. -/
theorem IxPage.insertPairs_eq {p n r : Nat} (hr : page.numKey = p + r) (key : Nat → κ)
    (rid : Nat → Rid) :
    page.insertPairs p key rid n =
      { ((((page.putKeys (p + n) r fun j => page.keys (p + j)).putRids (p + n) r
          fun j => page.rids (p + j)).putKeys p n key).putRids p n rid) with
        numKey := page.numKey + n } := by
  have hcast : ∀ i : Nat, ((i : Int) < p ↔ i < p) ∧ ((i : Int) < p + n ↔ i < p + n) ∧
      ((i : Int) < p + r + n ↔ i < p + r + n) := fun i => by omega
  unfold IxPage.insertPairs
  rw [if_pos (by omega)]
  simp only [IxPage.putKeys, IxPage.putRids, overwrite_insert, hr, hcast, Int.toNat_natCast]

/-- `insert_pairs` on the node that the bytes show. -/
theorem insertPairs_does (h : hdr.LaidOut) {p n : Nat} {key rid : List UInt8}
    (h0 : 0 ≤ page.numKey) (hn : page.numKey + n ≤ hdr.slots)
    (hkey : n * hdr.width ≤ key.length) (hrid : n * ridSize ≤ rid.length) :
    Does (shown hdr decode) (insertPairs hdr p key rid n) page ⟨⟩
      (page.insertPairs p (fun j => decode (Memory.chunk key hdr.width j))
        (fun j => ridOf (Memory.chunk rid ridSize j)) n) := by
  refine .bind getSize_does ?_
  by_cases hpos : page.numKey - p ≥ 0
  · rw [if_pos hpos]
    obtain ⟨r, hr⟩ : ∃ r : Nat, page.numKey = p + r := ⟨(page.numKey - p).toNat, by omega⟩
    have hslots : p + n + r ≤ hdr.slots := by omega
    have hkeyAt : getKey hdr p + n * hdr.colLen = getKey hdr ((p + n : Nat) : Int) := by
      unfold getKey
      push_cast
      rw [Int.add_mul, Int.add_assoc]
    have hridAt : getRid hdr p + n * ridSize = getRid hdr ((p + n : Nat) : Int) := by
      unfold getRid
      push_cast
      rw [Int.add_mul]
      omega
    have hres : page.numKey - p = r := by omega
    have hsize : IsInt (page.numKey + n) := by
      have := h.slots_le
      unfold IsInt
      omega
    rw [IxPage.insertPairs_eq hr]
    simp only [hres, hkeyAt, hridAt]
    refine .bind (moveKeys_does h (by omega) (by omega)) ?_
    refine .bind (moveRids_does h (by omega) (by omega)) ?_
    refine .bind (copyKeys_does h (by omega) hkey) ?_
    refine .bind (copyRids_does h (by omega) hrid) ?_
    exact .bind getSize_does (setSize_does h hsize)
  · rw [if_neg hpos, IxPage.insertPairs, if_neg hpos]
    exact .pure

theorem IxPage.insertPairs_congr {p n : Nat} {key key' : Nat → κ} {rid rid' : Nat → Rid}
    (h : ∀ j < n, key j = key' j ∧ rid j = rid' j) :
    page.insertPairs p key rid n = page.insertPairs p key' rid' n := by
  unfold IxPage.insertPairs
  split_ifs
  · rw [IxPage.mk.injEq]
    refine ⟨rfl, rfl, rfl, rfl, rfl, ?_, ?_⟩
    · ext i
      split_ifs
      · rfl
      · exact (h _ (by omega)).1
      · rfl
      · rfl
    · funext i
      split_ifs
      · rfl
      · exact (h _ (by omega)).2
      · rfl
      · rfl
  · rfl

/-- `insert_pair` on the node that the bytes show. -/
theorem insertPair_does (h : hdr.LaidOut) {p : Nat} {key : List UInt8} {rid : Rid}
    (h0 : 0 ≤ page.numKey) (hn : page.numKey < hdr.slots) (hkey : hdr.width ≤ key.length)
    (hrid : rid.IsInts) :
    Does (shown hdr decode) (insertPair hdr p key rid) page ⟨⟩
      (page.insertPair p (decode (key.take hdr.width)) rid) := by
  have hlen : (ridBytes rid).length = 1 * ridSize := by rw [length_ridBytes, Nat.one_mul]
  have hpair : page.insertPairs p (fun j => decode (Memory.chunk key hdr.width j))
      (fun j => ridOf (Memory.chunk (ridBytes rid) ridSize j)) (1 : Nat) =
      page.insertPair p (decode (key.take hdr.width)) rid := by
    refine IxPage.insertPairs_congr fun j hj => ?_
    obtain rfl : j = 0 := by omega
    rw [chunk_zero, chunk_zero, List.take_of_length_le (length_ridBytes rid).le,
      ridOf_ridBytes hrid.1 hrid.2]
    exact ⟨rfl, rfl⟩
  rw [← hpair]
  exact insertPairs_does h h0 (by push_cast; omega) (by rwa [Nat.one_mul]) hlen.ge

theorem isInt_bytesInt (b : Nat → UInt8) : IsInt (bytesInt b) := by
  unfold bytesInt IsInt
  constructor
  · exact Int.le_bmod (by decide)
  · exact Int.bmod_lt (by decide)

theorem isInt_intOf (buf : List UInt8) : IsInt (intOf buf) := by
  unfold intOf
  exact isInt_bytesInt _

/-- The fields of the header of a node are `int`s. -/
theorem isInt_field {d : PageData} (hd : shown hdr decode d = page) (field : IxPageHdrField) :
    IsInt (page.field field) := by
  rw [← hd, shown, field_shownBy, fieldOf]
  exact isInt_intOf _

theorem isInts_ridOf (buf : List UInt8) : (ridOf buf).IsInts := by
  simp only [ridOf, Rid.IsInts]
  exact ⟨isInt_intOf _, isInt_intOf _⟩

/-- The rids of a node are `int`s. -/
theorem isInts_rids {d : PageData} (hd : shown hdr decode d = page) (i : Nat) :
    (page.rids i).IsInts := by
  rw [← hd]
  simp only [shown, shownBy]
  split_ifs
  · exact isInts_ridOf _
  · exact ⟨⟨by decide, by decide⟩, ⟨by decide, by decide⟩⟩

/-- The bytes of a key stand for it. -/
theorem loadKey_shows (h : hdr.LaidOut) {i : Nat} (hi : i < hdr.slots) {d : PageData}
    (hd : shown hdr decode d = page) :
    ∃ key d', loadKey hdr i d = .ok key d' ∧ shown hdr decode d' = page ∧
      decode key = page.keys i ∧ key.length = hdr.width := by
  obtain ⟨d', hrun, hmem⟩ := loadKey_reads h hi d rfl
  refine ⟨_, d', hrun, ?_, ?_, Memory.length_cell _ _ _ _⟩
  · rw [shown, hmem]
    exact hd
  · rw [← hd]
    exact (if_pos hi).symm

/-- The page after one round of the loop of `erase_pair`. -/
def IxPage.pull (page : IxPage κ) (i : Nat) : IxPage κ :=
  (page.setKey i (page.keys (i + 1))).setRid i (page.rids (i + 1))

/-- A round of the loop of `erase_pair`. -/
theorem eraseLoop_succ_does (h : hdr.LaidOut) {i rounds : Nat} (hi : i + 1 < hdr.slots)
    {page' : IxPage κ}
    (hrest : Does (shown hdr decode) (eraseLoop hdr rounds ((i + 1 : Nat) : Int)) (page.pull i) ⟨⟩
      page') :
    Does (shown hdr decode) (eraseLoop hdr (rounds + 1) i) page ⟨⟩ page' := by
  refine .bind_exists fun d hd => ?_
  obtain ⟨key, d', hrun, hd', hkey, hlen⟩ := loadKey_shows h hi hd
  refine ⟨key, d', hrun, ?_⟩
  rw [hd']
  have hset : Does (shown hdr decode) (setKey hdr i key) page ⟨⟩
      (page.setKey i (decode (key.take hdr.width))) := setKey_does h (by omega) hlen.ge
  rw [List.take_of_length_le hlen.le, hkey] at hset
  refine .bind hset (.bind (loadRid_does h hi) (.bind (setRid_does h (by omega) ?_) hrest))
  exact isInts_rids hd (i + 1)

/-- The page after some rounds of the loop of `erase_pair`. -/
def IxPage.pulled (page : IxPage κ) (i rounds : Nat) : IxPage κ :=
  (page.putKeys i rounds fun j => page.keys (i + j + 1)).putRids i rounds
    fun j => page.rids (i + j + 1)

theorem IxPage.pulled_zero (i : Nat) : page.pulled i 0 = page := by
  unfold IxPage.pulled IxPage.putKeys IxPage.putRids
  simp only [overwrite_zero]

theorem overwrite_pull {α : Type} (f : Nat → α) (i n : Nat) :
    overwrite (Function.update f i (f (i + 1))) (i + 1) n
        (fun j => Function.update f i (f (i + 1)) (i + 1 + j + 1)) =
      overwrite f i (n + 1) fun j => f (i + j + 1) := by
  rw [← overwrite_succ]
  refine overwrite_congr fun j _ => ?_
  rw [Function.update_of_ne (by omega)]
  exact congrArg f (by omega)

theorem IxPage.pulled_pull (i rounds : Nat) :
    (page.pull i).pulled (i + 1) rounds = page.pulled i (rounds + 1) := by
  unfold IxPage.pulled IxPage.putKeys IxPage.putRids IxPage.pull IxPage.setKey IxPage.setRid
  simp only [Int.toNat_natCast, overwrite_pull]

/-- The loop of `erase_pair`. -/
theorem eraseLoop_does (h : hdr.LaidOut) (rounds : Nat) :
    ∀ {page : IxPage κ} {i : Nat}, i + rounds < hdr.slots →
      Does (shown hdr decode) (eraseLoop hdr rounds i) page ⟨⟩ (page.pulled i rounds) := by
  induction rounds with
  | zero =>
    intro page i _
    rw [IxPage.pulled_zero]
    exact .pure
  | succ rounds ih =>
    intro page i hi
    rw [← IxPage.pulled_pull]
    exact eraseLoop_succ_does h (by omega) (ih (by omega))

/-- `erase_pair` on the node that the bytes show. -/
theorem erasePair_does (h : hdr.LaidOut) {p : Nat} (h0 : 0 ≤ page.numKey)
    (hn : page.numKey < hdr.slots) (hp : p < hdr.slots) :
    Does (shown hdr decode) (erasePair hdr p) page ⟨⟩ (page.erasePair p) := by
  have hsize : IsInt (page.numKey - 1) := by
    have := h.slots_le
    unfold IsInt
    omega
  have hpage : page.erasePair p =
      { page.pulled p (page.numKey - p).toNat with numKey := page.numKey - 1 } := by
    unfold IxPage.erasePair IxPage.pulled IxPage.putKeys IxPage.putRids overwrite
    simp only [IxPage.mk.injEq, true_and]
    constructor
    · ext i
      split_ifs <;> first | rfl | omega | skip
      exact congrArg page.keys (by omega)
    · funext i
      split_ifs <;> first | rfl | omega | skip
      exact congrArg page.rids (by omega)
  rw [hpage]
  refine .bind getSize_does (.bind (eraseLoop_does h _ (by omega)) ?_)
  exact .bind getSize_does (setSize_does h hsize)

end Change

/-! ### Searching -/

/-- What keys are: `ix_compare` on buffers of `col_len` bytes or more compares what they stand for,
and they stand for their first `col_len` bytes. -/
structure IxFileHdr.Keys {κ : Type} [IxKey κ] (hdr : IxFileHdr) (decode : List UInt8 → κ) :
    Prop where
  compare : ∀ a b, hdr.width ≤ a.length → hdr.width ≤ b.length →
    ixCompareBytes a b hdr.colType (.ofInt hdr.colLen) = .ok (ixCompare (decode a) (decode b))
  take : ∀ buf, hdr.width ≤ buf.length → decode (buf.take hdr.width) = decode buf

section Search

variable {κ : Type} [IxKey κ] {hdr : IxFileHdr} {decode : List UInt8 → κ} {page : IxPage κ}
  {key : List UInt8}

/-- Comparing with the key in a slot. -/
theorem compareKey_does (h : hdr.LaidOut) (hkeys : hdr.Keys decode) {i : Nat}
    (hi : i < hdr.slots) (hkey : hdr.width ≤ key.length) :
    Does (shown hdr decode) (compareKey hdr key i) page
      (ixCompare (decode key) (page.keys i)) page := by
  have hend := h.keys_le (p := i) (n := 1) (by omega)
  have hrids := h.rids_le (p := 0) (n := 0) (by omega)
  have hnonneg : (0 : Int) ≤ i * hdr.width := Int.mul_nonneg (by omega) (by omega)
  have h0 : 0 ≤ getKey hdr i := by
    rw [getKey_eq h]
    omega
  have hlast : getKey hdr i + hdr.width ≤ pageSize := by
    rw [getKey_eq h]
    omega
  refine shown_does fun mem hmem => ⟨mem, ?_, hmem⟩
  refine .bind (load_does h0 (by omega) (by omega)) ?_
  set buf := Memory.load mem (getKey hdr i) (pageSize - getKey hdr i).toNat with hbuf
  have hlen : hdr.width ≤ buf.length := by
    rw [hbuf, Memory.length_load]
    omega
  have hcell : buf.take hdr.width = Memory.cell mem ixPageHdrSize hdr.width i := by
    rw [hbuf, Memory.take_load (by omega), getKey_eq h, Memory.cell]
  have hvalue : decode buf = page.keys i := by
    rw [← hkeys.take buf hlen, hcell, ← hmem]
    exact (if_pos hi).symm
  rw [hkeys.compare key buf hkey hlen, hvalue]
  exact .pure

theorem boundLoop_does (h : hdr.LaidOut) (hkeys : hdr.Keys decode) (hkey : hdr.width ≤ key.length)
    (op : Bool) (rounds : Nat) :
    ∀ {left right : Int}, 0 ≤ left → right ≤ hdr.slots →
      Does (shown hdr decode) (boundLoop hdr op key rounds left right) page
        (IxPage.boundLoop op page.keys (decode key) rounds left right) page := by
  induction rounds with
  | zero =>
    intro left right _ _
    exact .pure
  | succ rounds ih =>
    intro left right h0 hslots
    unfold boundLoop IxPage.boundLoop
    by_cases hlt : left < right
    · rw [if_pos hlt, if_pos hlt]
      obtain ⟨mid, hmid⟩ : ∃ mid : Nat, (left + right) / 2 = mid :=
        ⟨((left + right) / 2).toNat, by omega⟩
      have hcompare : Does (shown hdr decode) (compareKey hdr key mid) page
          (ixCompare (decode key) (page.keys mid)) page :=
        compareKey_does h hkeys (by omega) hkey
      simp only [hmid, Int.toNat_natCast]
      refine .bind hcompare ?_
      split_ifs
      · exact ih h0 (by omega)
      · exact ih (by omega) hslots
      · exact ih h0 (by omega)
    · rw [if_neg hlt, if_neg hlt]
      exact .pure

variable (h : hdr.LaidOut) (hkeys : hdr.Keys decode) (hkey : hdr.width ≤ key.length)
include h hkeys hkey

theorem lowerBound_does (hn : page.numKey ≤ hdr.slots) :
    Does (shown hdr decode) (lowerBound hdr key) page (page.lowerBound (decode key)) page :=
  .bind getSize_does (boundLoop_does h hkeys hkey true _ (le_refl 0) hn)

theorem upperBound_does (hn : page.numKey ≤ hdr.slots) :
    Does (shown hdr decode) (upperBound hdr key) page (page.upperBound (decode key)) page :=
  .bind getSize_does (boundLoop_does h hkeys hkey false _ (le_refl 0) hn)

omit h hkeys hkey in
/-- The searches end between 0 and `num_key`. -/
theorem boundLoop_nat (op : Bool) (target : κ) (h0 : 0 ≤ page.numKey) :
    ∃ r : Nat, IxPage.boundLoop op page.keys target page.numKey.toNat 0 page.numKey = r ∧
      r ≤ page.numKey := by
  obtain ⟨n, hn⟩ := Int.eq_ofNat_of_zero_le h0
  obtain ⟨r, hr, -, hle⟩ := boundLoop_range op page.keys target n (Nat.zero_le n)
  refine ⟨r, ?_, by omega⟩
  rw [hn, Int.toNat_natCast]
  exact hr

theorem locateKeyIndex_does (h0 : 0 ≤ page.numKey) (hn : page.numKey ≤ hdr.slots) :
    Does (shown hdr decode) (locateKeyIndex hdr key) page (page.locateKeyIndex (decode key))
      page := by
  obtain ⟨r, hr, hle⟩ := boundLoop_nat true (decode key) h0
  have hlower : page.lowerBound (decode key) = r := hr
  refine .bind (lowerBound_does h hkeys hkey hn) (.bind getSize_does ?_)
  unfold IxPage.locateKeyIndex
  rw [hlower]
  by_cases hend : (r : Int) = page.numKey
  · simp only [hend, ne_eq, not_true_eq_false, if_false, false_and]
    exact .pure
  · simp only [hend, ne_eq, not_false_eq_true, if_true, true_and, Int.toNat_natCast]
    refine .bind (compareKey_does h hkeys (by omega) hkey) ?_
    split_ifs
    · exact .pure
    · exact .pure

omit h hkeys hkey in
theorem locateKeyIndex_cases (target : κ) (h0 : 0 ≤ page.numKey) :
    page.locateKeyIndex target = -1 ∨
      ∃ r : Nat, page.locateKeyIndex target = r ∧ r < page.numKey := by
  obtain ⟨r, hr, hle⟩ := boundLoop_nat true target h0
  have hlower : page.lowerBound target = r := hr
  unfold IxPage.locateKeyIndex
  rw [hlower]
  by_cases hfound : (r : Int) ≠ page.numKey ∧ ixCompare target (page.keys (r : Int).toNat) = 0
  · have := hfound.1
    exact .inr ⟨r, if_pos hfound, by omega⟩
  · exact .inl (if_neg hfound)

theorem leafLookup_does (h0 : 0 ≤ page.numKey) (hn : page.numKey ≤ hdr.slots) :
    Does (shown hdr decode) (leafLookup hdr key) page (page.leafLookup (decode key)) page := by
  refine .bind (locateKeyIndex_does h hkeys hkey h0 hn) ?_
  unfold IxPage.leafLookup
  rcases locateKeyIndex_cases (decode key) h0 with hnone | ⟨r, hr, hlt⟩
  · simp only [hnone, ne_eq, not_true_eq_false, if_false]
    exact .pure
  · have hne : (r : Int) ≠ -1 := by omega
    simp only [hr, ne_eq, hne, not_false_eq_true, if_true, Int.toNat_natCast]
    exact .bind (loadRid_does h (by omega)) .pure

theorem internalLookup_does (h0 : 0 ≤ page.numKey) (hn : page.numKey ≤ hdr.slots) :
    Does (shown hdr decode) (internalLookup hdr key) page (page.internalLookup (decode key))
      page := by
  obtain ⟨r, hr, hle⟩ := boundLoop_nat false (decode key) h0
  have hupper : page.upperBound (decode key) = r := hr
  have hslots := h.slots_pos
  refine .bind (upperBound_does h hkeys hkey hn) ?_
  unfold IxPage.internalLookup IxPage.valueAt
  rw [hupper]
  by_cases hzero : (r : Int) ≠ 0
  · obtain ⟨i, rfl⟩ : ∃ i, r = i + 1 := ⟨r - 1, by omega⟩
    have hi : ((i + 1 : Nat) : Int) - 1 = i := by omega
    simp only [hzero, ne_eq, not_false_eq_true, if_true, hi, Int.toNat_natCast]
    exact valueAt_does h (by omega)
  · simp only [hzero, if_false]
    obtain rfl : r = 0 := by omega
    exact valueAt_does h (by omega)

/-- `Insert` on the node that the bytes show. -/
theorem insert_does {value : Rid} (h0 : 0 ≤ page.numKey) (hn : page.numKey < hdr.slots)
    (hvalue : value.IsInts) :
    Does (shown hdr decode) (insert hdr key value) page (page.insert (decode key) value).numKey
      (page.insert (decode key) value) := by
  obtain ⟨r, hr, hle⟩ := boundLoop_nat true (decode key) h0
  have hlower : page.lowerBound (decode key) = r := hr
  refine .bind (lowerBound_does h hkeys hkey (by omega)) ?_
  unfold IxPage.insert
  simp only [hlower, Int.toNat_natCast]
  refine .bind (compareKey_does h hkeys (by omega) hkey) ?_
  split_ifs
  · exact getSize_does
  · have hins : Does (shown hdr decode) (insertPair hdr r key value) page ⟨⟩
        (page.insertPair r (decode (key.take hdr.width)) value) :=
      insertPair_does h h0 hn hkey hvalue
    rw [hkeys.take key hkey] at hins
    exact .bind hins getSize_does

/-- `Remove` on the node that the bytes show. -/
theorem remove_does (h0 : 0 ≤ page.numKey) (hn : page.numKey < hdr.slots) :
    Does (shown hdr decode) (remove hdr key) page (page.remove (decode key)).numKey
      (page.remove (decode key)) := by
  obtain ⟨r, hr, hle⟩ := boundLoop_nat true (decode key) h0
  have hlower : page.lowerBound (decode key) = r := hr
  refine .bind (lowerBound_does h hkeys hkey (by omega)) ?_
  unfold IxPage.remove
  simp only [hlower, Int.toNat_natCast]
  refine .bind (compareKey_does h hkeys (by omega) hkey) ?_
  split_ifs
  · exact .bind (erasePair_does h h0 hn (by omega)) getSize_does
  · exact getSize_does

end Search

section Child

variable {κ : Type} {hdr : IxFileHdr} {decode : List UInt8 → κ} {page : IxPage κ}

theorem findChildLoop_does (h : hdr.LaidOut) {childPageNo : Int} {k : Nat} (hk : k < hdr.slots)
    (hfound : (page.rids k).pageNo = childPageNo) (rounds : Nat) :
    ∀ {i : Nat}, i ≤ k → k < i + rounds → (∀ j, i ≤ j → j < k → (page.rids j).pageNo ≠ childPageNo) →
      Does (shown hdr decode) (findChildLoop hdr childPageNo rounds i) page (k : Int) page := by
  induction rounds with
  | zero =>
    intro i hle hlt _
    omega
  | succ rounds ih =>
    intro i hle hlt hbefore
    refine .bind (valueAt_does h (by omega)) ?_
    by_cases hi : (page.rids i).pageNo = childPageNo
    · obtain rfl : i = k := by
        by_contra hne
        exact hbefore i (le_refl i) (by omega) hi
      rw [if_pos hi]
      exact .pure
    · rw [if_neg hi]
      have hne : i ≠ k := by
        rintro rfl
        exact hi hfound
      exact ih (i := i + 1) (by omega) (by omega) fun j h1 h2 => hbefore j (by omega) h2

/-- `find_child`, where the assertion holds. -/
theorem findChild_does (h : hdr.LaidOut) {childPageNo r : Int} (hn : page.numKey ≤ hdr.slots)
    (hfound : page.findChild childPageNo = some r) :
    Does (shown hdr decode) (findChild hdr childPageNo) page r page := by
  obtain ⟨k, hfind, rfl⟩ := Option.map_eq_some_iff.mp hfound
  obtain ⟨hk, hmem, hbefore⟩ := List.find?_range_eq_some.mp hfind
  rw [List.mem_range] at hmem
  refine .bind getSize_does (findChildLoop_does h (i := 0) (by omega) (by simpa using hk) _ (by omega)
    (by omega) fun j _ hj => by simpa using hbefore j hj)

/-- `RemoveAndReturnOnlyChild`, where the assertions hold. -/
theorem removeAndReturnOnlyChild_does (h : hdr.LaidOut) (hone : page.numKey = 1)
    (hslots : 1 < hdr.slots) :
    Does (shown hdr decode) (removeAndReturnOnlyChild hdr) page (page.rids 0).pageNo
      (page.erasePair 0) := by
  have hsize : (page.erasePair 0).numKey = 0 := by
    show page.numKey - 1 = 0
    omega
  have herase : Does (shown hdr decode) (erasePair hdr 0) page ⟨⟩ (page.erasePair 0) :=
    erasePair_does (p := 0) h (by omega) (by omega) (by omega)
  refine .bind getSize_does ?_
  rw [if_neg (not_not.mpr hone)]
  refine .bind (valueAt_does (i := 0) h (by omega)) ?_
  refine .bind herase ?_
  refine .bind getSize_does ?_
  rw [if_neg (not_not.mpr hsize)]
  exact .pure

end Child

end Rucbase
