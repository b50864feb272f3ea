import Mathlib.Data.List.Forall2
import Rucbase.Record.Equiv.RmPageHandle
import Rucbase.Recovery.LogRecord

/-!
# Table names in the log

The constructors of `LogRecord` count the name of the table with its length in front of it
(`NamedLog.build_spec`).  `SerializeTableName` writes both, but moves the position on by the size of
the member `tab_name_size_` and not by its value, so that it stands behind the name only if the name
has four bytes.  Names that are written one after another are kept, with the positions that the sizes
of the records say, exactly if all of them have that length and the position, an `int`, does not wrap
around (`keepsNames_iff`).
-/

namespace Rucbase

open LogRecord Memory

/-! ### Records with a table name -/

/-- The constructors of a record that names a table, with their other arguments. -/
inductive NamedLog where
  | named (txnId prevLsn : Int32) (logType : LogRecordType)
  | update (txnId prevLsn : Int32) (logType : LogRecordType) (rid : Rid)
      (oldTuple newTuple : RmRecord)
  | insert (txnId prevLsn : Int32) (rid : Rid) (record : RmRecord)
  | delete (txnId prevLsn : Int32) (rid : Rid) (record : RmRecord)
  | newPage (txnId prevLsn : Int32) (logType : LogRecordType) (pageNo : Int32)

namespace NamedLog

/-- The record for a table. -/
def build (log : NamedLog) (tableName : List UInt8) : LogM LogRecord :=
  match log with
  | named txnId prevLsn logType => LogRecord.named txnId prevLsn logType tableName
  | update txnId prevLsn logType rid oldTuple newTuple =>
    LogRecord.update txnId prevLsn logType rid oldTuple newTuple tableName
  | insert txnId prevLsn rid record => insertDelete txnId prevLsn .insert rid record tableName
  | delete txnId prevLsn rid record => insertDelete txnId prevLsn .delete rid record tableName
  | newPage txnId prevLsn logType pageNo =>
    LogRecord.newPage txnId prevLsn logType pageNo tableName

/-- The size of the record without the name and its length. -/
def payload : NamedLog → Int32
  | named .. => headerSize
  | update _ _ _ _ oldTuple newTuple =>
    headerSize + sizeofRid + (sizeofInt + oldTuple.size) + (sizeofInt + newTuple.size)
  | insert _ _ _ record => headerSize + sizeofRid + (sizeofInt + record.size)
  | delete _ _ _ record => headerSize + sizeofRid + (sizeofInt + record.size)
  | newPage .. => headerSize + sizeofInt

/-- **The constructors**: the record has the name, and its size counts the name and its length. -/
theorem build_spec (log : NamedLog) {tableName : List UInt8} {tabNameSize : Int32}
    {tabName : List UInt8} (hname : copyName tableName = .ok (tabNameSize, tabName)) :
    ∃ record, log.build tableName = .ok record ∧ record.tabNameSize = tabNameSize ∧
      record.tabName = tabName ∧ record.size = log.payload + (sizeofInt + tabNameSize) := by
  cases log with
  | named txnId prevLsn logType =>
    refine ⟨_, by simp only [build, LogRecord.named, hname]; rfl, rfl, rfl, ?_⟩
    exact Int32.add_assoc _ _ _
  | update txnId prevLsn logType rid oldTuple newTuple =>
    refine ⟨_, by simp only [build, LogRecord.update, hname]; rfl, rfl, rfl, ?_⟩
    simp only [payload]
    grind
  | insert txnId prevLsn rid record =>
    refine ⟨_, by simp only [build, insertDelete, hname]; rfl, rfl, rfl, ?_⟩
    simp only [payload]
    grind
  | delete txnId prevLsn rid record =>
    refine ⟨_, by simp only [build, insertDelete, hname]; rfl, rfl, rfl, ?_⟩
    simp only [payload]
    grind
  | newPage txnId prevLsn logType pageNo =>
    refine ⟨_, by simp only [build, LogRecord.newPage, hname]; rfl, rfl, rfl, ?_⟩
    simp only [payload]
    grind

theorem build_error (log : NamedLog) {tableName : List UInt8} {e : LogError}
    (hname : copyName tableName = .error e) : log.build tableName = .error e := by
  cases log <;> simp only [build, LogRecord.named, LogRecord.update, insertDelete,
    LogRecord.newPage, hname] <;> rfl

end NamedLog

/-- A name that `copyName` accepts and that has a length below `2 ^ 31` is copied whole. -/
theorem copyName_of_lt {name : List UInt8} (h : name.length < 2 ^ 31) :
    copyName name = .ok (Int32.ofNat name.length, name) := by
  have hsize : (Int32.ofNat name.length).toInt = name.length := Int32.toInt_ofNat_of_lt h
  have hpos : ¬Int32.ofNat name.length < 0 := by
    rw [Int32.lt_iff_toInt_lt, hsize, Int32.toInt_zero]
    omega
  unfold copyName
  simp only
  rw [if_neg hpos, hsize, Int.toNat_natCast, List.take_length]
  rfl

/-! ### One name -/

section One

variable {record : LogRecord} {buf buf' : Int → UInt8} {pos : Int32}

/-- The position does not wrap around in front of `2 ^ 31`. -/
theorem toInt_add_of_lt {pos c : Int32} {n : Nat} (hc : c.toInt = n) (h : pos.toInt + n < 2 ^ 31) :
    (pos + c).toInt = pos.toInt + n := by
  have hlow := pos.le_toInt
  rw [Int32.toInt_add, hc, Int.bmod_eq_of_le] <;> omega

theorem toInt_add_eight (h : pos.toInt + 8 < 2 ^ 31) : (pos + 8).toInt = pos.toInt + 8 :=
  toInt_add_of_lt rfl h

theorem serializeTableName_pos (record : LogRecord) (buf : Int → UInt8) (pos : Int32) :
    (record.serializeTableName buf pos).2 = pos + 8 := Int32.add_assoc pos 4 4

theorem serializeTableName_buf (record : LogRecord) (buf : Int → UInt8)
    (h : pos.toInt + 4 < 2 ^ 31) : (record.serializeTableName buf pos).1 =
      store (store buf pos.toInt ((List.range 4).map fun i => intBytes record.tabNameSize.toInt i))
        (pos.toInt + 4) (record.tabName.take record.tabNameSize.toInt.toNat) := by
  have hpos : (pos + sizeofInt).toInt = pos.toInt + 4 := toInt_add_of_lt rfl h
  unfold serializeTableName
  simp only [hpos]

/-- What is in front of the position stays. -/
theorem serializeTableName_of_lt {i : Int} (h : pos.toInt + 4 < 2 ^ 31) (hi : i < pos.toInt) :
    (record.serializeTableName buf pos).1 i = buf i := by
  rw [serializeTableName_buf record buf h, store_of_lt (by omega), store_of_lt hi]

/-- The name is read back where it was written, as long as nothing is written over it. -/
theorem deserializeTableName_eq_ok {name : List UInt8} (h : pos.toInt + 4 < 2 ^ 31)
    (hsize : record.tabNameSize.toInt = name.length) (hname : record.tabName = name)
    (hkept : ∀ i, pos.toInt ≤ i → i < pos.toInt + 4 + name.length →
      buf' i = (record.serializeTableName buf pos).1 i) (into : LogRecord) :
    ∃ read, into.deserializeTableName buf' pos.toInt = .ok read ∧ read.tabName = name := by
  have hwhole : record.tabName.take record.tabNameSize.toInt.toNat = name := by
    rw [hname, hsize, Int.toNat_natCast, List.take_length]
  have hword : bytesInt (fun i => buf' (pos.toInt + i)) = name.length := by
    refine bytesInt_intBytes ⟨by omega, ?_⟩ fun j hj => ?_
    · rw [← hsize]
      exact record.tabNameSize.toInt_lt
    · -- byte `j` of the length is not touched by the name
      rw [hkept _ (by omega) (by omega), serializeTableName_buf record buf h,
        store_of_lt (by omega), store_add _ _ (by simpa using hj), List.getElem_map,
        List.getElem_range, hsize]
  have hbytes : load buf' (pos.toInt + 4) name.length = name := by
    rw [load_congr fun i h1 h2 => hkept i (by omega) h2, serializeTableName_buf record buf h,
      hwhole, load_store_self]
  unfold deserializeTableName
  simp only [hword]
  rw [if_neg (by omega), Int.toNat_natCast, hbytes]
  exact ⟨_, rfl, rfl⟩

end One

/-! ### Names one after another -/

/-- `SerializeTableName` for one record after another with the running position: the buffer at the
end, and where each call started and ended. -/
def serializeAll : List LogRecord → (Int → UInt8) → Int32 → (Int → UInt8) × List (Int32 × Int32)
  | [], logBuffer, _ => (logBuffer, [])
  | record :: records, logBuffer, pos =>
    let (logBuffer, pos') := record.serializeTableName logBuffer pos
    let (logBuffer, calls) := serializeAll records logBuffer pos'
    (logBuffer, (pos, pos') :: calls)

/-- What one call should have done: the name can be read from the buffer where the call started, and
the call moved on by the length of the name with its size, which is what the constructor counted. -/
structure NameKept (logBuffer : Int → UInt8) (log : NamedLog) (name : List UInt8)
    (record : LogRecord) (call : Int32 × Int32) : Prop where
  name : ∀ into : LogRecord, ∃ read,
    into.deserializeTableName logBuffer call.1.toInt = .ok read ∧ read.tabName = name
  advance : call.2.toInt = call.1.toInt + (4 + record.tabNameSize.toInt)
  size : record.size = log.payload + (sizeofInt + record.tabNameSize)

/-- The records of some names can be made, and writing their names one after another from a position
on keeps every name. -/
def KeepsNames (logs : List (NamedLog × List UInt8)) (logBuffer : Int → UInt8) (pos : Int32) :
    Prop :=
  ∃ records, List.Forall₂ (fun log record => log.1.build log.2 = .ok record) logs records ∧
    ∀ e ∈ logs.zip (records.zip (serializeAll records logBuffer pos).2),
      NameKept (serializeAll records logBuffer pos).1 e.1.1 e.1.2 e.2.1 e.2.2

@[simp]
theorem serializeAll_cons_buf (record : LogRecord) (records : List LogRecord) (buf : Int → UInt8)
    (pos : Int32) : (serializeAll (record :: records) buf pos).1 =
      (serializeAll records (record.serializeTableName buf pos).1 (pos + 8)).1 := by
  rw [← serializeTableName_pos record buf pos]
  rfl

@[simp]
theorem serializeAll_cons_calls (record : LogRecord) (records : List LogRecord) (buf : Int → UInt8)
    (pos : Int32) : (serializeAll (record :: records) buf pos).2 =
      (pos, pos + 8) :: (serializeAll records (record.serializeTableName buf pos).1 (pos + 8)).2 := by
  rw [← serializeTableName_pos record buf pos]
  rfl

/-- As long as the position does not wrap around, nothing in front of it is touched. -/
theorem serializeAll_of_lt {records : List LogRecord} {buf : Int → UInt8} {pos : Int32} {i : Int}
    (h : pos.toInt + 8 * records.length < 2 ^ 31) (hi : i < pos.toInt) :
    (serializeAll records buf pos).1 i = buf i := by
  induction records generalizing buf pos with
  | nil => rfl
  | cons record records ih =>
    rw [List.length_cons] at h
    have hpos : (pos + 8).toInt = pos.toInt + 8 := toInt_add_eight (by omega)
    rw [serializeAll_cons_buf, ih (by omega) (by omega), serializeTableName_of_lt (by omega) hi]

/-- A constructor that returns has copied the name. -/
theorem NamedLog.tabNameSize_of_build {log : NamedLog} {name : List UInt8} {record : LogRecord}
    (hbuild : log.build name = .ok record) :
    record.tabNameSize = Int32.ofNat name.length ∧ ¬record.tabNameSize < 0 := by
  rcases hcopy : copyName name with e | ⟨size, bytes⟩
  · rw [log.build_error hcopy] at hbuild
    cases hbuild
  · obtain ⟨built, hbuilt, hsize, -, -⟩ := log.build_spec hcopy
    rw [hbuilt, Except.ok.injEq] at hbuild
    unfold copyName at hcopy
    simp only at hcopy
    split at hcopy
    · cases hcopy
    · rename_i hpos
      have hcopied : Int32.ofNat name.length = size := congrArg Prod.fst (Except.ok.inj hcopy)
      rw [← hbuild, hsize, ← hcopied]
      exact ⟨rfl, hpos⟩

/-- A name that can be read from the log has a length below `2 ^ 31`. -/
theorem length_lt_of_deserializeTableName {into read : LogRecord} {buf : Int → UInt8} {pos : Int}
    (h : into.deserializeTableName buf pos = .ok read) : read.tabName.length < 2 ^ 31 := by
  unfold deserializeTableName at h
  simp only at h
  split at h
  · cases h
  · rw [← Except.ok.inj h]
    simp only [length_load]
    have hword : bytesInt (fun i => buf (pos + i)) < 2 ^ 31 := Int.bmod_lt (by decide)
    omega

/-- A call only moves behind the name, and not around, if the name has four bytes. -/
theorem NameKept.length_eq {buf : Int → UInt8} {log : NamedLog} {name : List UInt8}
    {record : LogRecord} {pos : Int32} (hkept : NameKept buf log name record (pos, pos + 8))
    (hbuild : log.build name = .ok record) :
    name.length = 4 ∧ (pos + 8).toInt = pos.toInt + 8 := by
  obtain ⟨hsize, hpos⟩ := NamedLog.tabNameSize_of_build hbuild
  have hadvance : (pos + 8).toInt = pos.toInt + (4 + record.tabNameSize.toInt) := hkept.advance
  have height : (pos + 8).toInt = (pos.toInt + 8).bmod (2 ^ 32) := Int32.toInt_add pos 8
  have hfour : record.tabNameSize.toInt = 4 := by
    have hnonneg : 0 ≤ record.tabNameSize.toInt := by
      rwa [Int32.lt_iff_toInt_lt, Int32.toInt_zero, Int.not_lt] at hpos
    have hlow := pos.le_toInt
    have hhigh := pos.toInt_lt
    rw [Int.bmod_def] at height
    split at height <;> omega
  have hlength : name.length < 2 ^ 31 := by
    obtain ⟨read, hread, hname⟩ := hkept.name record
    rw [← hname]
    exact length_lt_of_deserializeTableName hread
  rw [hsize, Int32.toInt_ofNat_of_lt hlength] at hfour
  constructor
  · omega
  · rw [hadvance, hsize, Int32.toInt_ofNat_of_lt hlength, hfour]
    rfl

theorem length_eq_of_namesKept {logs : List (NamedLog × List UInt8)} {records : List LogRecord}
    {last buf : Int → UInt8} {pos : Int32}
    (hbuild : List.Forall₂ (fun log record => log.1.build log.2 = .ok record) logs records)
    (hkept : ∀ e ∈ logs.zip (records.zip (serializeAll records buf pos).2),
      NameKept last e.1.1 e.1.2 e.2.1 e.2.2) :
    (∀ log ∈ logs, log.2.length = 4) ∧ pos.toInt + 8 * logs.length < 2 ^ 31 := by
  induction hbuild generalizing buf pos with
  | nil => simpa using pos.toInt_lt
  | cons hhead _ ih =>
    rw [serializeAll_cons_calls, List.zip_cons_cons, List.zip_cons_cons,
      List.forall_mem_cons] at hkept
    obtain ⟨hlength, hpos⟩ := hkept.1.length_eq hhead
    obtain ⟨hlengths, hend⟩ := ih hkept.2
    rw [List.forall_mem_cons, List.length_cons]
    exact ⟨⟨hlength, hlengths⟩, by omega⟩

/-- A name of four bytes is kept, if all that is written later stands behind it. -/
theorem nameKept_of_length_eq (log : NamedLog) {name : List UInt8} (hfour : name.length = 4) :
    ∃ record, log.build name = .ok record ∧ ∀ (buf last : Int → UInt8) (pos : Int32),
      pos.toInt + 8 < 2 ^ 31 →
        (∀ i < pos.toInt + 8, last i = (record.serializeTableName buf pos).1 i) →
          NameKept last log name record (pos, pos + 8) := by
  have hlt : name.length < 2 ^ 31 := by omega
  obtain ⟨record, hbuild, hsize, hname, htotal⟩ := log.build_spec (copyName_of_lt hlt)
  have hint : record.tabNameSize.toInt = name.length := by
    rw [hsize]
    exact Int32.toInt_ofNat_of_lt hlt
  refine ⟨record, hbuild, fun buf last pos hpos hlast => ⟨?_, ?_, hsize ▸ htotal⟩⟩
  · have hkept : ∀ i, pos.toInt ≤ i → i < pos.toInt + 4 + name.length →
        last i = (record.serializeTableName buf pos).1 i := fun i _ hi => hlast i (by omega)
    have hword : pos.toInt + 4 < 2 ^ 31 := by omega
    exact deserializeTableName_eq_ok hword hint hname hkept
  · rw [hint, hfour]
    exact toInt_add_eight hpos

/-- **Names one after another**: they are kept, and the positions are the ones that the constructors
count, exactly if every name has four bytes and the position stays below `2 ^ 31`. -/
theorem keepsNames_iff (logs : List (NamedLog × List UInt8)) (logBuffer : Int → UInt8)
    (pos : Int32) : KeepsNames logs logBuffer pos ↔
      (∀ log ∈ logs, log.2.length = 4) ∧ pos.toInt + 8 * logs.length < 2 ^ 31 := by
  constructor
  · rintro ⟨records, hbuild, hkept⟩
    exact length_eq_of_namesKept hbuild hkept
  · rintro ⟨hfour, hend⟩
    induction logs generalizing logBuffer pos with
    | nil => exact ⟨[], .nil, by simp⟩
    | cons log logs ih =>
      rw [List.length_cons] at hend
      have hpos : (pos + 8).toInt = pos.toInt + 8 := toInt_add_eight (by omega)
      rw [List.forall_mem_cons] at hfour
      obtain ⟨record, hbuild, hkept⟩ := nameKept_of_length_eq log.1 hfour.1
      obtain ⟨records, hbuilds, hkepts⟩ :=
        ih (record.serializeTableName logBuffer pos).1 (pos + 8) hfour.2 (by omega)
      have hlength : logs.length = records.length := hbuilds.length_eq
      refine ⟨record :: records, .cons hbuild hbuilds, ?_⟩
      rw [serializeAll_cons_calls, serializeAll_cons_buf, List.zip_cons_cons, List.zip_cons_cons,
        List.forall_mem_cons]
      refine ⟨hkept _ _ _ (by omega) fun i hi => serializeAll_of_lt (by omega) (by omega), hkepts⟩

/-- The names `orders` and `a`: the length of the second is written over the end of the first, which
is read back as `orde`, a byte of value one and a zero byte. -/
theorem not_keepsNames_orders :
    ¬KeepsNames [(.named 0 (-1) .createTable, [111, 114, 100, 101, 114, 115]),
        (.named 0 (-1) .createTable, [97])] (fun _ => 0) 0 ∧
      ∃ orders a, NamedLog.build (.named 0 (-1) .createTable) [111, 114, 100, 101, 114, 115] =
          .ok orders ∧
        NamedLog.build (.named 0 (-1) .createTable) [97] = .ok a ∧
        (orders.deserializeTableName (serializeAll [orders, a] (fun _ => 0) 0).1 0).map
          LogRecord.tabName = .ok [111, 114, 100, 101, 1, 0] := by
  constructor
  · rintro ⟨records, hbuild, hkept⟩
    have hfour := (length_eq_of_namesKept hbuild hkept).1
    revert hfour
    decide
  · exact ⟨_, _, rfl, rfl, by decide⟩

end Rucbase
