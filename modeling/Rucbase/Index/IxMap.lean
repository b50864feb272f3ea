import Rucbase.Index.IxRuns

/-!
# What an index is for

An index is a finite map from keys to rids.  `IxMap.call` says what the calls of an index do to it.
-/

namespace Rucbase

variable {κ : Type} [DecidableEq κ]

/-- The map behind an index. -/
abbrev IxMap (κ : Type) := κ → Option Rid

/-- A call, on the map: what it returns, and the map after it. -/
def IxMap.call (m : IxMap κ) : IxCall κ → IxAnswer × IxMap κ
  | .insertEntry key value =>
    if (m key).isSome then (.bool false, m) else (.bool true, Function.update m key (some value))
  | .deleteEntry key =>
    if (m key).isSome then (.bool true, Function.update m key none) else (.bool false, m)
  | .getValue key => (.rid (m key), m)
  | .reopen _ => (.done, m)
  | .restart _ => (.done, m)

end Rucbase
