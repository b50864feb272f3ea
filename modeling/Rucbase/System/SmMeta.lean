import Rucbase.Index.IxDefs
import Rucbase.Lib.TextStream

/-!
# The catalog

`ColMeta`, `TabMeta` and `DbMeta` of `system/sm_meta.h` and the text that `operator<<` writes of them
and `operator>>` reads (the enum operators are those of `defs.h`).  `std::map<std::string, _>` is
`ExtTreeMap String _`: it is iterated in the order of its keys.
-/

namespace Rucbase

open TextStream Std

/-- `ColMeta`. -/
structure ColMeta where
  tabName : String
  name : String
  type : ColType
  len : Int32
  offset : Int32
  index : Bool
deriving DecidableEq

/-- `TabMeta`. -/
structure TabMeta where
  name : String := ""
  cols : List ColMeta := []
deriving DecidableEq

/-- `DbMeta`. -/
structure DbMeta where
  name : String := ""
  tabs : ExtTreeMap String TabMeta := ∅

/-- `operator<<` for an enum. -/
def ColType.text (type : ColType) : List Char := integer type.toInt

/-- `operator>>` for an enum. -/
def ColType.extract : IStream ColType := do
  let intVal ← extractInt
  return ColType.ofInt intVal.toInt

namespace ColMeta

/-- `operator<<`. -/
def text (col : ColMeta) : List Char :=
  col.tabName.toList ++ [' '] ++ col.name.toList ++ [' '] ++ col.type.text ++ [' '] ++
    integer col.len.toInt ++ [' '] ++ integer col.offset.toInt ++ [' '] ++ integer col.index.toNat

/-- `operator>>`. -/
def extract : IStream ColMeta := do
  let tabName ← extractString
  let name ← extractString
  let type ← ColType.extract
  let len ← extractInt
  let offset ← extractInt
  let index ← extractBool
  return { tabName, name, type, len, offset, index }

end ColMeta

namespace TabMeta

/-- `operator<<`. -/
def text (tab : TabMeta) : List Char :=
  tab.name.toList ++ ['\n'] ++ integer tab.cols.length ++ ['\n'] ++
    tab.cols.flatMap fun col => col.text ++ ['\n']

/-- `operator>>`; the columns are appended to those that `tab` has. -/
def extract (tab : TabMeta) : IStream TabMeta := do
  let name ← extractString
  let n ← extractSize
  let cols ← times (fun cols => do return cols ++ [← ColMeta.extract]) n tab.cols
  return { name, cols }

end TabMeta

namespace DbMeta

/-- `is_table`. -/
def isTable (db : DbMeta) (tabName : String) : Bool := db.tabs.contains tabName

/-- `operator<<`. -/
def text (db : DbMeta) : List Char :=
  db.name.toList ++ ['\n'] ++ integer db.tabs.size ++ ['\n'] ++
    db.tabs.toList.flatMap fun entry => entry.2.text ++ ['\n']

/-- `operator>>`; the tables are entered into `tabs_` beside those that `db` has. -/
def extract (db : DbMeta) : IStream DbMeta := do
  let name ← extractString
  let n ← extractSize
  let tabs ← times (fun tabs => do
    let tab ← TabMeta.extract {}
    return tabs.insert tab.name tab) n db.tabs
  return { name, tabs }

end DbMeta

end Rucbase
