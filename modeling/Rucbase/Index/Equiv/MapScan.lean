import Rucbase.Index.Equiv.IxMap
import Rucbase.Index.Equiv.ScanRuns

/-!
# Scanning the map

A full scan of an index that stands for a map returns the rids of the map, in the order of their
keys, whatever was inserted and deleted before (`index_scan_lists_map`).
-/

namespace Rucbase

open EStateM IxIndexHandle

variable {κ : Type} [LinearOrder κ] {order : Nat}

/-- The entries of the map, in the order of their keys. -/
structure IxMap.Lists (m : IxMap κ) (entries : List (κ × Rid)) : Prop where
  sorted : entries.Pairwise fun e e' => e.1 < e'.1
  mem_iff : ∀ key value, (key, value) ∈ entries ↔ m key = some value

/-- A full scan lists the map. -/
theorem IxIndex.Represents.scans {s : IxIndex κ} {m : IxMap κ} (horder : 2 < order)
    (hs : s.Represents order m) :
    ∃ (entries : List (κ × Rid)) (scan : IxScan) (s₀ : IxIndex κ), m.Lists entries ∧
      IxScan.full s = .ok scan s₀ ∧
      ∃ rounds s', scan.collect rounds s₀ = .ok (entries.map Prod.snd) s' := by
  obtain ⟨H, T, hM, -, hm⟩ := hs
  have hchain := (hM.represents horder).chain
  obtain ⟨scan, hfull, hbegin, hend⟩ := hchain.full_does
  obtain ⟨s₀, hrun, hmem⟩ := hfull s rfl
  rw [Tree.chunkEntries_chunks] at hbegin hend
  rw [← List.append_nil T.toList] at hbegin
  obtain ⟨s', hrun', -⟩ := hchain.collect_does hbegin hend (Nat.lt_succ_self _) s₀ hmem
  exact ⟨T.toList, scan, s₀, ⟨hM.search.pairwise, hm⟩, hrun, _, s', hrun'⟩

/-- **Ordered scans.**  After every run of calls from a new index, each of which finds what it takes
for granted, a scan from `leaf_begin` to `leaf_end` comes to its end and returns the rids of the
map, each once and in the order of the keys. -/
theorem index_scan_lists_map [Inhabited κ] (fd : Int) (colType : ColType) (colLen : Int)
    (order : Nat) (horder : 2 < order) (keys : Nat → κ) (rids : Nat → Rid)
    (pool : PageId → Option (IxPage κ)) (pinCount : PageId → Nat) (fd2pageno : Int → Int)
    (hpool : ∀ q, pool ⟨fd, q⟩ = none) (run : List ((IxCall κ × IxAnswer) × IxIndex κ))
    (hrun : Run IxIndex.Step
      (IxIndex.create fd colType colLen order keys rids pool pinCount fd2pageno) run)
    (hfits : Along (fun s a _ => s.Fits order a.1)
      (IxIndex.create fd colType colLen order keys rids pool pinCount fd2pageno) run) :
    ∃ (entries : List (κ × Rid)) (scan : IxScan) (s₀ : IxIndex κ),
      IxMap.Lists (answers IxMap.call (fun _ => none) (run.map fun e => e.1.1)).2 entries ∧
      IxScan.full (lastState
        (IxIndex.create fd colType colLen order keys rids pool pinCount fd2pageno) run) =
          .ok scan s₀ ∧
      ∃ rounds s', scan.collect rounds s₀ = .ok (entries.map Prod.snd) s' := by
  obtain ⟨-, -, hlast⟩ := IxIndex.create_refines fd colType colLen keys rids pool pinCount
    fd2pageno horder hpool hrun hfits
  exact hlast.scans horder

/-- The root has split, and one key is gone. -/
theorem index_scan_lists_map_six :
    let calls : List (IxCall Int) := insertAll [1, 2] ++ [.deleteEntry 1] ++ insertAll [5, 3, 4]
    let run := (intIndex 3).trace 3 calls
    run.length = 6 ∧ ∃ (entries : List (Int × Rid)) (scan : IxScan) (s₀ : IxIndex Int),
      IxMap.Lists (answers IxMap.call (fun _ => none) (run.map fun e => e.1.1)).2 entries ∧
      IxScan.full (lastState (intIndex 3) run) = .ok scan s₀ ∧
      ∃ rounds s', scan.collect rounds s₀ = .ok (entries.map Prod.snd) s' := by
  intro calls run
  refine ⟨by decide +kernel, ?_⟩
  have hrun := IxIndex.run_trace 3 (P := fun _ => True) (l := calls) (fun _ _ => trivial)
    (intIndex 3)
  have hstart : (intIndex 3).links.Ok ∧ (intIndex 3).links.Fresh :=
    IxIndex.create_links_ok fun _ => rfl
  refine index_scan_lists_map 3 .int 4 3 (by decide) _ _ _ _ _ (fun _ => rfl) run
    (hrun.imp fun _ _ _ h => h.2) ?_
  exact IxIndex.fits_trace hstart.1 hstart.2 (by decide +kernel)

end Rucbase
