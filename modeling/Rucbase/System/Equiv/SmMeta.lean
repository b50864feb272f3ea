import Rucbase.System.SmMeta

/-!
# Reading the catalog back

What `operator>>` reads from the text of `operator<<`.  Both write and read their parts in the same
order, and each part is followed by white space, so the texts are put together by `Extracts.bind` and
`Extracts.times`, from the columns up to the database.
-/

namespace Rucbase

open TextStream Std

/-- The names of the column are words. -/
def ColMeta.Named (col : ColMeta) : Prop := IsToken col.tabName.toList ∧ IsToken col.name.toList

instance (col : ColMeta) : Decidable col.Named :=
  inferInstanceAs (Decidable (IsToken col.tabName.toList ∧ IsToken col.name.toList))

/-- The names of the table and of its columns are words. -/
def TabMeta.Named (tab : TabMeta) : Prop := IsToken tab.name.toList ∧ ∀ col ∈ tab.cols, col.Named

instance (tab : TabMeta) : Decidable tab.Named :=
  inferInstanceAs (Decidable (IsToken tab.name.toList ∧ ∀ col ∈ tab.cols, col.Named))

/-- The names in the catalog are words, and a table is entered under its name. -/
structure DbMeta.Named (db : DbMeta) : Prop where
  name : IsToken db.name.toList
  tabs : ∀ entry ∈ db.tabs.toList, entry.1 = entry.2.name ∧ entry.2.Named

theorem ColType.extracts (type : ColType) {c : Char} (hc : isSpace c) :
    Extracts ColType.extract (type.text ++ [c]) type := by
  have h := (extracts_int (Int32.ofInt type.toInt) hc).map
    (g := fun intVal => ColType.ofInt intVal.toInt)
  cases type <;> exact h

theorem ColMeta.extracts {col : ColMeta} (hcol : col.Named) :
    Extracts ColMeta.extract (col.text ++ ['\n']) col := by
  have hspace : isSpace ' ' := by decide
  have htext : col.text ++ ['\n'] =
      (col.tabName.toList ++ [' ']) ++ ((col.name.toList ++ [' ']) ++ ((col.type.text ++ [' ']) ++
        ((integer col.len.toInt ++ [' ']) ++ ((integer col.offset.toInt ++ [' ']) ++
          (integer col.index.toNat ++ ['\n']))))) := by
    simp only [ColMeta.text, List.append_assoc]
  rw [htext]
  refine (extracts_string hcol.1 hspace).bind ?_
  refine (extracts_string hcol.2 hspace).bind ?_
  refine (col.type.extracts hspace).bind ?_
  refine (extracts_int col.len hspace).bind ?_
  refine (extracts_int col.offset hspace).bind ?_
  exact (extracts_bool col.index (c := '\n') (by decide)).map

/-- Appending the elements one by one. -/
theorem List.foldl_push {α : Type} (l before : List α) :
    l.foldl (fun cols col => cols ++ [col]) before = before ++ l := by
  induction l generalizing before with
  | nil => simp
  | cons a l ih => simp [ih]

theorem TabMeta.extracts {tab : TabMeta} (htab : tab.Named) :
    Extracts (TabMeta.extract {}) tab.text tab := by
  have hnewline : isSpace '\n' := by decide
  have htext : tab.text = (tab.name.toList ++ ['\n']) ++ ((integer tab.cols.length ++ ['\n']) ++
      tab.cols.flatMap fun col => col.text ++ ['\n']) := by
    simp only [TabMeta.text, List.append_assoc]
  have hcols : Extracts (times (fun cols => do return cols ++ [← ColMeta.extract]) tab.cols.length [])
      (tab.cols.flatMap fun col => col.text ++ ['\n']) tab.cols := by
    have h := Extracts.times (f := fun cols col => cols ++ [col]) tab.cols []
      fun col hcol cols => (ColMeta.extracts (htab.2 col hcol)).map (g := fun col => cols ++ [col])
    rwa [List.foldl_push, List.nil_append] at h
  rw [htext]
  refine (extracts_string htab.1 hnewline).bind ?_
  refine (extracts_size tab.cols.length hnewline).bind ?_
  exact hcols.map

/-- Entering the entries of a map into an empty one gives the map. -/
theorem insertMany_toList {α : Type} (m : ExtTreeMap String α) :
    m.toList.foldl (fun acc entry => acc.insert entry.1 entry.2) ∅ = m := by
  rw [← ExtTreeMap.insertMany_list_eq_foldl]
  refine ExtTreeMap.ext_getElem? fun name => ?_
  cases hname : m[name]? with
  | none =>
    rw [ExtTreeMap.getElem?_insertMany_list_of_contains_eq_false, ExtTreeMap.getElem?_empty]
    rw [ExtTreeMap.map_fst_toList_eq_keys]
    by_contra hmem
    simp at hmem
    simp_all
  | some tab =>
    refine ExtTreeMap.getElem?_insertMany_list_of_mem (k := name) (by simp)
      ExtTreeMap.distinct_keys_toList ?_
    exact ExtTreeMap.mem_toList_iff_getElem?_eq_some.mpr hname

theorem DbMeta.extracts {db : DbMeta} (hdb : db.Named) : Extracts (DbMeta.extract {}) db.text db := by
  have hnewline : isSpace '\n' := by decide
  have htext : db.text = (db.name.toList ++ ['\n']) ++ ((integer db.tabs.size ++ ['\n']) ++
      db.tabs.toList.flatMap fun entry => entry.2.text ++ ['\n']) := by
    simp only [DbMeta.text, List.append_assoc]
  have htabs : Extracts
      (times (fun tabs => do
        let tab ← TabMeta.extract {}
        return tabs.insert tab.name tab) db.tabs.size ∅)
      (db.tabs.toList.flatMap fun entry => entry.2.text ++ ['\n']) db.tabs := by
    rw [← ExtTreeMap.length_toList]
    nth_rewrite 3 [← insertMany_toList db.tabs]
    refine Extracts.times db.tabs.toList ∅ fun entry hentry tabs => ?_
    obtain ⟨hkey, hnamed⟩ := hdb.tabs entry hentry
    rw [hkey]
    exact ((TabMeta.extracts hnamed).append_space hnewline).map
  rw [htext]
  refine (extracts_string hdb.name hnewline).bind ?_
  refine (extracts_size db.tabs.size hnewline).bind ?_
  exact htabs.map

/-- **Reading the catalog back.**  From the text that `operator<<` writes, `operator>>` reads the same
catalog into a fresh one, and only white space is left. -/
theorem DbMeta.extract_text (db : DbMeta) (hdb : db.Named) :
    ∃ rest, rest.all isSpace ∧ DbMeta.extract {} db.text = some (db, rest) := by
  obtain ⟨after, hafter, h⟩ := DbMeta.extracts hdb [] [] rfl
  rw [List.nil_append, List.append_nil, List.append_nil] at h
  exact ⟨after, hafter, h⟩

/-- A catalog with two tables, one of them without columns. -/
def DbMeta.sample : DbMeta where
  name := "db"
  tabs := (∅ : ExtTreeMap String TabMeta)
    |>.insert "tb"
      { name := "tb"
        cols := [⟨"tb", "a", .int, 4, 0, true⟩, ⟨"tb", "b", .string, 16, 4, false⟩] }
    |>.insert "aux" { name := "aux" }

theorem DbMeta.extract_text_sample : DbMeta.sample.Named ∧
    ∃ rest, rest.all isSpace ∧ DbMeta.extract {} DbMeta.sample.text = some (DbMeta.sample, rest) := by
  have hnamed : DbMeta.sample.Named := ⟨by decide, by decide +kernel⟩
  exact ⟨hnamed, DbMeta.extract_text DbMeta.sample hnamed⟩

end Rucbase
