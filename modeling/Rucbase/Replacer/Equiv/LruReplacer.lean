import Mathlib.Data.List.Nodup
import Rucbase.Lib.Run
import Rucbase.Replacer.LruReplacer

/-!
# The replacer is a queue of frames

`LruReplacer.WF` ties the hash table to the list: every list node has its own address and
`lruHash` names exactly the node of each frame in the list.  It is kept by every operation
(`wf_new`, `WF.victim`, `WF.pin`, `WF.unpin`), and under it the operations are those of a queue
without duplicates on `frames`: `frames_unpin` enqueues at the front, `frames_pin` removes, and
`victim_eq_some_iff` takes the last.  So a replacer answers every list of calls as a FIFO queue with
removal does (`replacer_queue`).
-/

namespace Rucbase.LruReplacer

variable {φ : Type}

/-- The hash table names exactly the list nodes, which have distinct addresses. -/
structure WF (r : LruReplacer φ) : Prop where
  nodup : (r.lruList.map Prod.fst).Nodup
  lt_nextNode : ∀ e ∈ r.lruList, e.1 < r.nextNode
  hash_iff : ∀ f n, r.lruHash f = some n ↔ (n, f) ∈ r.lruList

variable [DecidableEq φ] {r : LruReplacer φ}

omit [DecidableEq φ] in
theorem wf_new : WF (new : LruReplacer φ) := ⟨by simp [new], by simp [new], by simp [new]⟩

omit [DecidableEq φ] in
/-- Two nodes of one frame are the same node, so no frame is in the list twice. -/
theorem WF.frames_nodup (h : WF r) : r.frames.Nodup := by
  have hinj : ∀ e ∈ r.lruList, ∀ e' ∈ r.lruList, e.2 = e'.2 → e = e' := by
    rintro ⟨n, f⟩ he ⟨n', f'⟩ he' heq
    obtain rfl : f = f' := heq
    have h1 := (h.hash_iff f n).mpr he
    have h2 := (h.hash_iff f n').mpr he'
    rw [h1] at h2
    rw [Option.some.inj h2]
  exact List.Nodup.map_on hinj h.nodup.of_map

omit [DecidableEq φ] in
theorem WF.mem_frames_iff (h : WF r) (f : φ) : f ∈ r.frames ↔ r.lruHash f ≠ none := by
  rw [frames, List.mem_map, Option.ne_none_iff_exists']
  constructor
  · rintro ⟨⟨n, f'⟩, he, rfl⟩
    exact ⟨n, (h.hash_iff _ _).mpr he⟩
  · rintro ⟨n, hn⟩
    exact ⟨(n, f), (h.hash_iff _ _).mp hn, rfl⟩

/-! ### `Unpin` -/

theorem WF.unpin (h : WF r) (f : φ) : WF (r.unpin f) := by
  unfold LruReplacer.unpin
  split
  · exact h
  · next hf =>
    refine ⟨?_, ?_, ?_⟩
    · rw [List.map_cons, List.nodup_cons]
      refine ⟨fun hmem => ?_, h.nodup⟩
      obtain ⟨e, he, heq⟩ := List.mem_map.mp hmem
      have := h.lt_nextNode e he
      dsimp only at heq
      omega
    · intro e he
      rcases List.mem_cons.mp he with rfl | he
      · exact Nat.lt_succ_self _
      · exact Nat.lt_succ_of_lt (h.lt_nextNode e he)
    · intro g n
      rcases eq_or_ne g f with rfl | hne
      · have hnot : (n, g) ∉ r.lruList := fun hmem => by
          rw [← h.hash_iff, hf] at hmem
          cases hmem
        simp [Function.update_self, hnot, eq_comm]
      · simp [hne, h.hash_iff]

/-- `Unpin` enqueues an absent frame and leaves a present one where it is. -/
theorem frames_unpin (h : WF r) (f : φ) :
    (r.unpin f).frames = if f ∈ r.frames then r.frames else f :: r.frames := by
  have hmem := h.mem_frames_iff f
  unfold LruReplacer.unpin
  split
  · next n hn => rw [if_pos (hmem.mpr (by simp [hn]))]
  · next hn => rw [if_neg (fun hf => hmem.mp hf hn)]; rfl

theorem mem_frames_unpin (h : WF r) (f g : φ) :
    g ∈ (r.unpin f).frames ↔ g = f ∨ g ∈ r.frames := by
  rw [frames_unpin h]
  split_ifs with hf
  · exact ⟨Or.inr, fun hg => hg.elim (fun e => e ▸ hf) id⟩
  · exact List.mem_cons

/-! ### `Pin` -/

theorem WF.pin (h : WF r) (f : φ) : WF (r.pin f) := by
  unfold LruReplacer.pin
  split
  · exact h
  · next n hn =>
    refine ⟨h.nodup.sublist (List.filter_sublist.map _),
      fun e he => h.lt_nextNode e (List.mem_of_mem_filter he), ?_⟩
    intro g m
    rcases eq_or_ne g f with rfl | hne
    · have : (m, g) ∈ r.lruList → m = n := fun hm => by
        rw [← h.hash_iff, hn] at hm
        exact (Option.some.inj hm).symm
      simp only [Function.update_self, reduceCtorEq, List.mem_filter, decide_eq_true_eq, false_iff]
      exact fun hm => hm.2 (this hm.1)
    · have : (m, g) ∈ r.lruList → m ≠ n := by
        rintro hm rfl
        have := List.inj_on_of_nodup_map h.nodup hm ((h.hash_iff _ _).mp hn) rfl
        exact hne (congrArg Prod.snd this)
      simp only [Function.update_of_ne hne, h.hash_iff, List.mem_filter, decide_eq_true_eq]
      exact ⟨fun hm => ⟨hm, this hm⟩, And.left⟩

/-- `Pin` removes the frame. -/
theorem frames_pin (h : WF r) (f : φ) : (r.pin f).frames = r.frames.erase f := by
  rw [h.frames_nodup.erase_eq_filter]
  unfold LruReplacer.pin frames
  split
  · next hn =>
    -- no node, so the frame is not in the list
    symm
    rw [List.filter_eq_self]
    intro g hg
    have hne : g ≠ f := by
      rintro rfl
      exact (h.mem_frames_iff g).mp hg hn
    simpa using hne
  · next n hn =>
    rw [List.filter_map]
    congr 1
    refine List.filter_congr fun e he => ?_
    -- the node of the frame, and no other, has this address
    have hiff : e.1 = n ↔ e.2 = f := by
      constructor
      · rintro rfl
        exact congrArg Prod.snd
          (List.inj_on_of_nodup_map h.nodup he ((h.hash_iff f e.1).mp hn) rfl)
      · rintro rfl
        have he' := (h.hash_iff e.2 e.1).mpr he
        rw [hn] at he'
        exact (Option.some.inj he').symm
    rw [Bool.eq_iff_iff]
    simp [hiff]

theorem mem_frames_pin (h : WF r) (f g : φ) :
    g ∈ (r.pin f).frames ↔ g ∈ r.frames ∧ g ≠ f := by
  rw [(h.pin f).mem_frames_iff, h.mem_frames_iff]
  unfold LruReplacer.pin
  split
  · next hn => exact ⟨fun hg => ⟨hg, fun e => hg (e ▸ hn)⟩, And.left⟩
  · next n hn =>
    rcases eq_or_ne g f with rfl | hne
    · simp
    · simp [hne]

/-! ### `Victim` -/

theorem WF.victim (h : WF r) : WF r.victim.2 := by
  unfold LruReplacer.victim
  split
  · exact h
  · next n f hlast =>
    have hne : r.lruList ≠ [] := by rintro e; simp [e] at hlast
    have hlast' : r.lruList.getLast hne = (n, f) := by
      rw [List.getLast?_eq_some_getLast hne] at hlast
      exact Option.some.inj hlast
    have hsplit : r.lruList.dropLast ++ [(n, f)] = r.lruList := by
      rw [← hlast']; exact List.dropLast_append_getLast hne
    refine ⟨h.nodup.sublist ((List.dropLast_sublist _).map _),
      fun e he => h.lt_nextNode e ((List.dropLast_sublist _).subset he), ?_⟩
    have hfr := h.frames_nodup
    rw [frames, ← hsplit, List.map_append, List.nodup_append] at hfr
    intro g m
    have hmem : (m, g) ∈ r.lruList ↔ (m, g) ∈ r.lruList.dropLast ∨ (m, g) = (n, f) := by
      conv_lhs => rw [← hsplit]
      simp
    rcases eq_or_ne g f with rfl | hne'
    · simp only [Function.update_self, reduceCtorEq, false_iff]
      intro hm
      exact hfr.2.2 g (List.mem_map.mpr ⟨_, hm, rfl⟩) g (by simp) rfl
    · simp only [Function.update_of_ne hne', h.hash_iff, hmem, Prod.mk.injEq, hne', and_false,
        or_false]

/-- A victim is found exactly when the queue is not empty: the frame enqueued earliest. -/
theorem victim_eq_some_iff (r : LruReplacer φ) (f : φ) :
    r.victim.1 = some f ↔ r.frames.getLast? = some f := by
  unfold LruReplacer.victim frames
  rw [List.getLast?_map]
  split
  · next hl => simp [hl]
  · next n g hl => simp [hl]

theorem frames_victim (r : LruReplacer φ) : r.victim.2.frames = r.frames.dropLast := by
  unfold LruReplacer.victim frames
  split
  · next hl =>
    rw [List.getLast?_eq_none_iff] at hl
    simp [hl]
  · exact List.map_dropLast

theorem victim_eq_none_iff (r : LruReplacer φ) : r.victim.1 = none ↔ r.frames = [] := by
  unfold LruReplacer.victim frames
  split
  · next hl => simpa using List.getLast?_eq_none_iff.mp hl
  · next n f hl =>
    simp only [reduceCtorEq, List.map_eq_nil_iff, false_iff]
    rintro e
    simp [e] at hl

/-- The frame taken was in the queue, and everything else stays. -/
theorem mem_frames_victim {f : φ} (hf : r.victim.1 = some f) (g : φ) :
    g ∈ r.frames ↔ g = f ∨ g ∈ r.victim.2.frames := by
  rw [victim_eq_some_iff] at hf
  have hne : r.frames ≠ [] := by rintro e; simp [e] at hf
  have hlast : r.frames.getLast hne = f := by
    rw [List.getLast?_eq_some_getLast hne] at hf
    exact Option.some.inj hf
  rw [frames_victim]
  conv_lhs => rw [← List.dropLast_append_getLast hne, hlast]
  simp [or_comm]

theorem not_mem_frames_victim (h : WF r) {f : φ} (hf : r.victim.1 = some f) :
    f ∉ r.victim.2.frames := by
  rw [victim_eq_some_iff] at hf
  have hne : r.frames ≠ [] := by rintro e; simp [e] at hf
  have hlast : r.frames.getLast hne = f := by
    rw [List.getLast?_eq_some_getLast hne] at hf
    exact Option.some.inj hf
  have hnd := h.frames_nodup
  rw [← List.dropLast_append_getLast hne, hlast, List.nodup_append] at hnd
  rw [frames_victim]
  exact fun hm => hnd.2.2 f hm f (by simp) rfl

/-! ### The replacer as a machine -/

/-- A call of the replacer. -/
inductive Call (φ : Type) where
  | pin (f : φ)
  | unpin (f : φ)
  | victim
  | size

/-- What a call returns. -/
inductive Answer (φ : Type) where
  | done
  | victim (f : Option φ)
  | size (n : Nat)
deriving DecidableEq

/-- Make a call. -/
def call (r : LruReplacer φ) : Call φ → Answer φ × LruReplacer φ
  | .pin f => (.done, r.pin f)
  | .unpin f => (.done, r.unpin f)
  | .victim => (.victim r.victim.1, r.victim.2)
  | .size => (.size r.size, r)

/-- A queue of frames with removal, the oldest one first. -/
def queueCall (q : List φ) : Call φ → Answer φ × List φ
  | .pin f => (.done, q.erase f)
  | .unpin f => (.done, if f ∈ q then q else q ++ [f])
  | .victim => (.victim q.head?, q.tail)
  | .size => (.size q.length, q)

/-- **One call** of the replacer is the call of the queue. -/
theorem call_queue (h : WF r) (c : Call φ) :
    (r.call c).1 = (queueCall r.frames.reverse c).1 ∧ WF (r.call c).2 ∧
      (r.call c).2.frames.reverse = (queueCall r.frames.reverse c).2 := by
  cases c with
  | pin f =>
    refine ⟨rfl, h.pin f, ?_⟩
    show (r.pin f).frames.reverse = r.frames.reverse.erase f
    rw [frames_pin h, h.frames_nodup.erase_eq_filter,
      (List.nodup_reverse.mpr h.frames_nodup).erase_eq_filter, List.filter_reverse]
  | unpin f =>
    refine ⟨rfl, h.unpin f, ?_⟩
    show (r.unpin f).frames.reverse =
      if f ∈ r.frames.reverse then r.frames.reverse else r.frames.reverse ++ [f]
    rw [frames_unpin h]
    by_cases hf : f ∈ r.frames
    · rw [if_pos hf, if_pos (List.mem_reverse.mpr hf)]
    · rw [if_neg hf, if_neg (fun hm => hf (List.mem_reverse.mp hm)), List.reverse_cons]
  | victim =>
    refine ⟨?_, h.victim, ?_⟩
    · show Answer.victim r.victim.1 = .victim r.frames.reverse.head?
      rw [List.head?_reverse]
      congr 1
      ext f
      exact victim_eq_some_iff r f
    · show r.victim.2.frames.reverse = r.frames.reverse.tail
      rw [frames_victim, List.tail_reverse]
  | size =>
    refine ⟨?_, h, rfl⟩
    show Answer.size r.lruList.length = .size r.frames.reverse.length
    rw [List.length_reverse, frames, List.length_map]

/-- **The replacer is a FIFO queue with removal.**  Whatever calls are made on a new replacer, its
answers are those of the queue, and afterwards list and hash table hold the frames of the queue: no
frame twice, and every frame with the address of its own node. -/
theorem replacer_queue (calls : List (Call φ)) :
    (answers call new calls).1 = (answers queueCall [] calls).1 ∧
      (answers call new calls).2.frames.reverse = (answers queueCall [] calls).2 ∧
      (answers call new calls).2.frames.Nodup ∧
      ((answers call new calls).2.lruList.map Prod.fst).Nodup ∧
      (∀ f n, (answers call new calls).2.lruHash f = some n ↔
        (n, f) ∈ (answers call new calls).2.lruList) ∧
      (answers call new calls).2.size = (answers queueCall [] calls).2.length := by
  let R : LruReplacer φ → List φ → Prop := fun r q => WF r ∧ r.frames.reverse = q
  have hstep : ∀ r q c, R r q →
      (call r c).1 = (queueCall q c).1 ∧ R (call r c).2 (queueCall q c).2 := by
    rintro r q c ⟨hwf, rfl⟩
    exact call_queue hwf c
  obtain ⟨hanswers, hwf, hqueue⟩ := answers_simulation hstep (⟨wf_new, rfl⟩ : R new []) calls
  refine ⟨hanswers, hqueue, hwf.frames_nodup, hwf.nodup, hwf.hash_iff, ?_⟩
  rw [← hqueue, List.length_reverse, frames, List.length_map]
  rfl

example : (answers call new [.unpin (-1 : Int), .unpin 2, .unpin (-1), .victim, .pin 2, .victim]).1 =
    [.done, .done, .done, .victim (some (-1)), .done, .victim none] := by
  decide

end Rucbase.LruReplacer
