import Rucbase.Common

/-!
# The replacer

`LRUReplacer` (`replacer/lru_replacer.cpp`) keeps the unpinned frames in a linked list, the most
recently unpinned one in front, and a hash table from each frame to its list node.  A list node
is a number here (its address), so that the iterators stored in `LRUhash_` are values: `lruList`
pairs the address of each node with the frame it holds, and `lruHash` maps a frame to an address.
Frame ids are of any type; nothing but their equality is used.  The latch and the unused `max_size_`
are left out.
-/

namespace Rucbase

structure LruReplacer (φ : Type) where
  /-- `LRUlist_`, front first: node address and frame. -/
  lruList : List (Nat × φ)
  /-- `LRUhash_`: the node of each frame. -/
  lruHash : φ → Option Nat
  /-- The address the next `push_front` allocates. -/
  nextNode : Nat

namespace LruReplacer

variable {φ : Type}

/-- `LRUReplacer::LRUReplacer`. -/
def new : LruReplacer φ := ⟨[], fun _ => none, 0⟩

/-- The frames in the list, front first. -/
def frames (r : LruReplacer φ) : List φ := r.lruList.map Prod.snd

/-- `LRUReplacer::Victim`: take the frame at the back of the list. -/
def victim [DecidableEq φ] (r : LruReplacer φ) : Option φ × LruReplacer φ :=
  match r.lruList.getLast? with
  | none => (none, r)
  | some (_, frameId) =>
    (some frameId,
      { r with lruList := r.lruList.dropLast, lruHash := Function.update r.lruHash frameId none })

/-- `LRUReplacer::Pin`: drop the frame's node, which `LRUhash_` names, if it has one. -/
def pin [DecidableEq φ] (r : LruReplacer φ) (frameId : φ) : LruReplacer φ :=
  match r.lruHash frameId with
  | none => r
  | some node =>
    { r with
      lruList := r.lruList.filter (fun e => e.1 ≠ node)
      lruHash := Function.update r.lruHash frameId none }

/-- `LRUReplacer::Unpin`: a frame without a node is pushed to the front. -/
def unpin [DecidableEq φ] (r : LruReplacer φ) (frameId : φ) : LruReplacer φ :=
  match r.lruHash frameId with
  | some _ => r
  | none =>
    { lruList := (r.nextNode, frameId) :: r.lruList
      lruHash := Function.update r.lruHash frameId (some r.nextNode)
      nextNode := r.nextNode + 1 }

/-- `LRUReplacer::Size`. -/
def size (r : LruReplacer φ) : Nat := r.lruList.length

end LruReplacer

end Rucbase
