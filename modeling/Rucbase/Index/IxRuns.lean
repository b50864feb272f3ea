import Rucbase.Index.IxIndexHandle
import Rucbase.Lib.Fuel
import Rucbase.Lib.Run

/-!
# Runs of an index

The calls that users of an index make, as steps from one state of the index to the next.  A call
that returns does so with enough rounds, and its result does not depend on their number
(`IxCall.run_below`).
-/

namespace Rucbase

open EStateM IxIndexHandle

variable {κ : Type}

/-- A call. -/
inductive IxCall (κ : Type) where
  | insertEntry (key : κ) (value : Rid)
  | deleteEntry (key : κ)
  | getValue (key : κ)
  /-- `close_index` and `open_index`, under a descriptor. -/
  | reopen (fd : Int)
  /-- `close_index`, and `open_index` in a new process. -/
  | restart (fd : Int)

/-- What a call returns. -/
inductive IxAnswer where
  | bool (b : Bool)
  | rid (r : Option Rid)
  | done
deriving DecidableEq

variable [IxKey κ] [DecidableEq κ] [Inhabited κ]

/-- Make a call. -/
def IxCall.run : IxCall κ → Nat → IxM κ IxAnswer
  | .insertEntry key value, fuel => do return .bool (← IxIndexHandle.insertEntry fuel key value)
  | .deleteEntry key, fuel => do return .bool (← IxIndexHandle.deleteEntry fuel key)
  | .getValue key, fuel => do return .rid (← IxIndexHandle.getValue fuel key)
  | .reopen fd, _ => do
    IxIndexHandle.reopen fd
    return .done
  | .restart fd, _ => do
    IxIndexHandle.restart fd
    return .done

/-- A call, with its answer, takes an index from one state to another. -/
def IxIndex.Step (s : IxIndex κ) (a : IxCall κ × IxAnswer) (s' : IxIndex κ) : Prop :=
  Returns a.1.run s a.2 s'

/-! ### More rounds -/

section Below

omit [DecidableEq κ] [Inhabited κ] in
theorem findLeafFrom_below (key : κ) (n : Nat) (q : Int) :
    Below (findLeafFrom key n q) (findLeafFrom key (n + 1) q) := by
  induction n generalizing q with
  | zero => exact .throw _ _
  | succ n ih =>
    unfold findLeafFrom
    exact .bind_right _ fun page => .ite (.refl _) (.bind_right _ ih)

omit [DecidableEq κ] [Inhabited κ] in
theorem findLeafPage_below (key : κ) (n : Nat) :
    Below (findLeafPage n key) (findLeafPage (n + 1) key) := by
  unfold findLeafPage
  exact .bind_right _ fun s => .bind_right _ (findLeafFrom_below key n)

omit [DecidableEq κ] in
theorem splitNodeIfFull_below (n : Nat) (q : Int) :
    Below (splitNodeIfFull (κ := κ) n q) (splitNodeIfFull (n + 1) q) := by
  induction n generalizing q with
  | zero => exact .throw _ _
  | succ n ih =>
    unfold splitNodeIfFull
    refine .bind_right _ fun s => .bind_right _ fun page => .ite ?_ (.refl _)
    refine .bind_right _ fun new => .bind_right _ fun newPage => .bind ?_ fun _ => .refl _
    unfold insertIntoParent
    refine .bind_right _ fun old => .ite (.refl _) ?_
    refine .bind_right _ fun parent => .bind_right _ fun page => .bind_right _ fun _ => ?_
    exact .bind (ih parent) fun _ => .refl _

omit [IxKey κ] [Inhabited κ] in
theorem maintainParent_below (n : Nat) (q : Int) :
    Below (maintainParent (κ := κ) n q) (maintainParent (n + 1) q) := by
  induction n generalizing q with
  | zero => exact .throw _ _
  | succ n ih =>
    unfold maintainParent
    refine .bind_right _ fun page => .ite ?_ (.refl _)
    refine .bind_right _ fun parent => .bind_right _ fun parentPage => ?_
    cases parentPage.findChild q with
    | none => exact .refl _
    | some rank =>
      refine .ite (.refl _) ?_
      exact .bind_right _ fun _ => .bind_right _ fun _ => ih parent

omit [IxKey κ] [Inhabited κ] in
theorem redistribute_below (n : Nat) (neighbor q index : Int) :
    Below (redistribute (κ := κ) n neighbor q index) (redistribute (n + 1) neighbor q index) := by
  unfold redistribute
  refine .bind_right _ fun nb => .bind_right _ fun page => .ite ?_ ?_
  · refine .bind_right _ fun _ => .bind_right _ fun _ => .bind_right _ fun _ => ?_
    exact maintainParent_below n q
  · refine .bind_right _ fun _ => .bind_right _ fun _ => .bind_right _ fun _ => ?_
    exact maintainParent_below n neighbor

omit [IxKey κ] [Inhabited κ] in
theorem coalesceOrRedistribute_below (n : Nat) (q : Int) :
    Below (coalesceOrRedistribute (κ := κ) n q) (coalesceOrRedistribute (n + 1) q) := by
  induction n generalizing q with
  | zero => exact .throw _ _
  | succ n ih =>
    unfold coalesceOrRedistribute
    refine .bind_right _ fun s => .bind_right _ fun page => .ite (.refl _) (.ite ?_ ?_)
    · exact .bind (maintainParent_below (n + 1) q) fun _ => .refl _
    · refine .bind_right _ fun parent => .bind_right _ fun parentPage => ?_
      cases parentPage.findChild q with
      | none => exact .refl _
      | some pos =>
        refine .bind_right _ fun brother => .bind_right _ fun brotherPage => .ite ?_ ?_
        · exact .bind (redistribute_below (n + 1) brother q pos) fun _ => .refl _
        · refine .bind ?_ fun _ => .refl _
          unfold coalesce
          refine .bind_right _ fun nb => .bind_right _ fun page => .bind_right _ fun _ => ?_
          -- the rest is the same whether `last_leaf` changes or not
          refine .bind_right _ fun _ => .bind_right _ fun s => .ite (.bind_right _ fun _ => ?_) ?_
          all_goals
            refine .bind_right _ fun _ => .bind_right _ fun _ => .bind_right _ fun parentPage => ?_
            exact .bind_right _ fun _ => .bind (ih parent) fun _ => .refl _

/-- **What a call returns does not depend on the number of rounds.** -/
theorem IxCall.run_below (a : IxCall κ) (n : Nat) : Below (a.run n) (a.run (n + 1)) := by
  cases a with
  | insertEntry key value =>
    refine .bind ?_ fun _ => .refl _
    unfold IxIndexHandle.insertEntry
    refine .bind (findLeafPage_below key n) fun leaf => .bind_right _ fun page => ?_
    refine .bind_right _ fun _ => .ite ?_ (.refl _)
    exact .bind (splitNodeIfFull_below n leaf) fun _ => .refl _
  | deleteEntry key =>
    refine .bind ?_ fun _ => .refl _
    unfold IxIndexHandle.deleteEntry
    refine .bind (findLeafPage_below key n) fun leaf => .bind_right _ fun page => ?_
    refine .bind_right _ fun _ => .ite (.refl _) ?_
    exact .bind (coalesceOrRedistribute_below n leaf) fun _ => .refl _
  | getValue key =>
    refine .bind ?_ fun _ => .refl _
    unfold IxIndexHandle.getValue
    exact .bind (findLeafPage_below key n) fun leaf => .refl _
  | reopen fd => exact .refl _
  | restart fd => exact .refl _

/-- A call that does something with some number of rounds does nothing else. -/
theorem IxIndex.Step.eq_of_ok {s s' t : IxIndex κ} {a : IxCall κ} {b b' : IxAnswer}
    (h : s.Step (a, b) s') {n : Nat} (hn : a.run n s = .ok b' t) : b = b' ∧ s' = t :=
  Returns.eq_of_ok a.run_below h hn

end Below

/-! ### Traces -/

/-- Make the calls one after another, up to the first that fails. -/
def IxIndex.trace (rounds : Nat) (s : IxIndex κ) :
    List (IxCall κ) → List ((IxCall κ × IxAnswer) × IxIndex κ)
  | [] => []
  | a :: l =>
    match a.run rounds s with
    | .ok b s' => ((a, b), s') :: trace rounds s' l
    | .error _ _ => []

/-- A trace is a run. -/
theorem IxIndex.run_trace (rounds : Nat) {P : IxCall κ → Prop} {l : List (IxCall κ)}
    (hl : ∀ a ∈ l, P a) (s : IxIndex κ) :
    Run (fun s a s' => P a.1 ∧ IxIndex.Step s a s') s (s.trace rounds l) := by
  induction l generalizing s with
  | nil => exact .nil s
  | cons a l ih =>
    unfold trace
    cases hrun : a.run rounds s with
    | ok b s' =>
      refine .cons ⟨hl a List.mem_cons_self, rounds, hrun⟩ (ih (fun a' ha' => ?_) s')
      exact hl a' (List.mem_cons_of_mem a ha')
    | error e s' => exact .nil s

/-- A check of the state before every call of a trace. -/
def IxIndex.checkTrace (rounds : Nat) (check : IxIndex κ → IxCall κ → Bool) (s : IxIndex κ) :
    List (IxCall κ) → Bool
  | [] => true
  | a :: l => check s a &&
    match a.run rounds s with
    | .ok _ s' => checkTrace rounds check s' l
    | .error _ _ => true

theorem IxIndex.along_trace {rounds : Nat} {check : IxIndex κ → IxCall κ → Bool}
    {P : IxIndex κ → IxCall κ → Prop} (hP : ∀ s a, check s a = true → P s a)
    {l : List (IxCall κ)} {s : IxIndex κ} (hl : s.checkTrace rounds check l = true) :
    Along (fun s a _ => P s a.1) s (s.trace rounds l) := by
  induction l generalizing s with
  | nil => trivial
  | cons a l ih =>
    unfold checkTrace at hl
    obtain ⟨ha, hrest⟩ := Bool.and_eq_true_iff.mp hl
    unfold trace
    cases hrun : a.run rounds s with
    | ok b s' =>
      rw [hrun] at hrest
      exact ⟨hP s a ha, ih hrest⟩
    | error e s' => trivial

/-- A new index of `int` keys in an empty pool; the uninitialised slots hold zeros. -/
def intIndex (order : Int) : IxIndex Int :=
  .create 3 .int 4 order (fun _ => 0) (fun _ => ⟨0, 0⟩) (fun _ => none) (fun _ => 0) fun _ => 0

/-- The calls that insert keys. -/
def insertAll (keys : List Int) : List (IxCall Int) := keys.map fun k => .insertEntry k ⟨k, 0⟩

end Rucbase
