import Rucbase.Lib.Memory
import Rucbase.System.SmMeta

/-!
# Printing tables

`RecordPrinter` (`record_printer.h`) and the functions of `SmManager` that print the catalog with it.
They append to the response of the server, `BUFFER_LENGTH` bytes at `data_send_` of which `*offset_`
are used; nobody checks that there is room.  A copy that does not stay inside the buffer is
`outOfBounds`: the source goes on with whatever stands behind the buffer overwritten.
-/

namespace Rucbase

open Std

/-- `Context`, as far as the response goes: `data_send_` and `*offset_`. -/
structure Context where
  dataSend : Int → UInt8
  offset : Int32

/-- The ways printing stops: at a failed `assert`, for a table that does not exist, at a column that
is not inside its tuple, and at a copy that is not inside the response. -/
inductive PrintError where
  | assertionFailure
  | tableNotFoundError (tabName : String)
  | badTuple
  | outOfBounds
deriving DecidableEq

/-- A program that prints: it may throw, and what has been printed before stays. -/
abbrev PrintM := EStateM PrintError Context

/-- `memcpy(context->data_send_ + *(context->offset_), str.c_str(), str.length())`, and
`*(context->offset_)` is moved behind it. -/
def append (str : List UInt8) : PrintM Unit := do
  let context ← get
  if 0 ≤ context.offset.toInt ∧ context.offset.toInt + str.length ≤ bufferLength then
    set
      { dataSend := Memory.store context.dataSend context.offset.toInt str
        offset := context.offset + Int32.ofNat str.length : Context }
  else throw .outOfBounds

/-- The bytes of a string. -/
def bytes (s : String) : List UInt8 := s.toUTF8.data.toList

/-- `std::to_string` for an integer. -/
def toStringInt (n : Int) : List UInt8 := (TextStream.integer n).map Char.toUInt8

/-- `std::setw(width)` for a string: it is filled with spaces on the left. -/
def setw (width : Nat) (s : List UInt8) : List UInt8 := List.replicate (width - s.length) 32 ++ s

structure RecordPrinter where
  numCols : Nat

namespace RecordPrinter

/-- `COL_WIDTH`. -/
def colWidth : Nat := 16

/-- `RecordPrinter::RecordPrinter`. -/
def new (numCols : Nat) : PrintM RecordPrinter :=
  if 0 < numCols then return ⟨numCols⟩ else throw .assertionFailure

/-- `RecordPrinter::print_separator`. -/
def printSeparator (printer : RecordPrinter) : PrintM Unit := do
  (List.range printer.numCols).forM fun _ => append (bytes "+" ++ List.replicate (colWidth + 2) 45)
  append (bytes "+\n")

/-- One cell of a record: what is too long is cut. -/
def cell (col : List UInt8) : List UInt8 :=
  let col := if colWidth < col.length then col.take (colWidth - 3) ++ bytes "..." else col
  bytes "| " ++ setw colWidth col ++ bytes " "

/-- `RecordPrinter::print_record`. -/
def printRecord (printer : RecordPrinter) (recStr : List (List UInt8)) : PrintM Unit := do
  if recStr.length ≠ printer.numCols then throw .assertionFailure
  recStr.forM fun col => append (cell col)
  append (bytes "|\n")

/-- `RecordPrinter::print_record_count`. -/
def printRecordCount (numRec : Nat) : PrintM Unit :=
  append (bytes "Total record(s): " ++ toStringInt numRec ++ bytes "\n")

end RecordPrinter

/-- `coltype2str`. -/
def coltype2str : ColType → String
  | .int => "INT"
  | .float => "FLOAT"
  | .string => "STRING"

/-- `DbMeta::get_table`. -/
def DbMeta.getTable (db : DbMeta) (tabName : String) : PrintM TabMeta :=
  match db.tabs[tabName]? with
  | some tab => return tab
  | none => throw (.tableNotFoundError tabName)

/-- `SmManager::show_tables`. -/
def DbMeta.showTables (db : DbMeta) : PrintM Unit := do
  let printer ← RecordPrinter.new 1
  printer.printSeparator
  printer.printRecord [bytes "Tables"]
  printer.printSeparator
  db.tabs.toList.forM fun entry => printer.printRecord [bytes entry.2.name]
  printer.printSeparator

/-- `SmManager::desc_table`. -/
def DbMeta.descTable (db : DbMeta) (tabName : String) : PrintM Unit := do
  let tab ← db.getTable tabName
  let captions := [bytes "Field", bytes "Type", bytes "Index"]
  let printer ← RecordPrinter.new captions.length
  printer.printSeparator
  printer.printRecord captions
  printer.printSeparator
  tab.cols.forM fun col => do
    let fieldInfo := [bytes col.name, bytes (coltype2str col.type),
      bytes (if col.index then "YES" else "NO")]
    printer.printRecord fieldInfo
  printer.printSeparator

end Rucbase
