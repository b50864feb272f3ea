import Mathlib.Logic.Function.Basic

/-!
# A cache that gives up what has been idle for longest

The specification of a cache with a fixed number of places, for items of any type.  An item in the
cache has a number of users; without users it is idle, and the cache knows when it lost its last
user.  An item that is acquired and is not in the cache gets an unused place, or else that of the
item which has been idle for longest.
-/

/-- The number of users of each item that is in the cache, the time at which an item was last
released by all its users, the time, and the number of unused places. -/
structure LruCache (α : Type) where
  users : α → Option Nat
  idleSince : α → Nat
  now : Nat
  room : Nat

/-- What is asked of a cache, with the answer. -/
inductive CacheAct (α : Type) where
  | acquire (a : α) (served : Bool)
  | release (a : α) (done : Bool)
  /-- Anything that has nothing to do with places. -/
  | other
deriving DecidableEq

namespace LruCache

variable {α : Type}

/-- An empty cache. -/
def new (places : Nat) : LruCache α := ⟨fun _ => none, fun _ => 0, 0, places⟩

/-- In the cache, and used by nobody. -/
def Idle (c : LruCache α) (a : α) : Prop := c.users a = some 0

/-- The item that has been idle for longest. -/
def Oldest (c : LruCache α) (a : α) : Prop :=
  c.Idle a ∧ ∀ b, c.Idle b → b ≠ a → c.idleSince a < c.idleSince b

variable [DecidableEq α]

/-- What a cache does. -/
inductive Step (c : LruCache α) : CacheAct α → LruCache α → Prop where
  | hit {a : α} {n : Nat} : c.users a = some n →
      Step c (.acquire a true) { c with users := Function.update c.users a (some (n + 1)) }
  | place {a : α} {n : Nat} : c.users a = none → c.room = n + 1 →
      Step c (.acquire a true)
        { c with users := Function.update c.users a (some 1), room := n }
  | evict {a v : α} : c.users a = none → c.room = 0 → c.Oldest v →
      Step c (.acquire a true)
        { c with users := Function.update (Function.update c.users v none) a (some 1) }
  | refuse {a : α} : c.users a = none → c.room = 0 → (∀ b, ¬c.Idle b) →
      Step c (.acquire a false) c
  | release {a : α} {n : Nat} : c.users a = some (n + 1) →
      Step c (.release a true)
        { c with
          users := Function.update c.users a (some n)
          idleSince := if n = 0 then Function.update c.idleSince a c.now else c.idleSince
          now := c.now + 1 }
  | unused {a : α} : (∀ n, c.users a ≠ some (n + 1)) → Step c (.release a false) c
  | other : Step c .other c

end LruCache
