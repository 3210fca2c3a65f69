import SettingsArchive.Proofs.Arena.Pruning

/-!
# Layouts

The numbers of the nodes of an arena cannot be seen.  A call of an arena is
answered from its tree, and does to its tree what it does to the arena
(`answer_tree`, `behind_tree`).  So arenas with equal trees have equal answers to
every call and are equal behind it, however their nodes are numbered
(`indistinguishable_of_beq`).  No tree is left out, since all of them have a layout
(`exists_tree_eq`).

There is one exception, and it is in the values and not in the layouts.  A NaN is
not equal to itself, so no two trees with a NaN in them are equal.
-/

namespace SettingsArchive.Arena

open Directory

variable {t u v : Arena}

/-! ## Layouts of a tree -/

/-- An arena without settings. -/
def empty : Arena :=
  single "" []

theorem tree_empty : empty.tree = Directory.empty :=
  directory_single "" []

/-- Directories can be added to an arena. -/
theorem exists_attached {u : Arena} {p : Nat} (ds : List Directory)
    (hp : p < u.size) : ∃ v, Attached u p ds v :=
  match ds with
  | [] => ⟨u, Attached.refl u p⟩
  | ⟨name, entries, directories⟩ :: ds => by
    obtain ⟨v, hv⟩ := exists_attached (u := u.addChild p name entries) (p := u.size)
      directories (by rw [size_addChild hp]; exact Nat.lt_succ_self u.size)
    have hv : Attached u p [⟨name, entries, directories⟩] v :=
      Attached.of_addChild hp hv
    obtain ⟨w, hw⟩ := exists_attached ds (Nat.lt_of_lt_of_le hp hv.size)
    exact ⟨w, hv.trans hw⟩

/-- Every tree has a layout. -/
theorem exists_tree_eq (d : Directory) : ∃ t : Arena, t.tree = d := by
  obtain ⟨name, entries, directories⟩ := d
  obtain ⟨t, ht⟩ := exists_attached directories (size_pos (single name entries))
  refine ⟨t, ?_⟩
  rw [tree, ht.directory, directory_single]
  rfl

/-! ## Calls -/

/-- The arena that a change leaves behind, carried out or refused. -/
def perform (t : Arena) : Change → Arena
  | .store text value time id mask =>
    match t.store text value time id mask with
    | .ok u => u
    | .error _ => t
  | .purge text => (t.purge text).2
  | .prune => t.prune
  | .trim kept => t.trim kept

/-- What an arena answers to a call. -/
def answer (t : Arena) : Call → Answer
  | .change (.store text value time id mask) =>
    .ofExcept (t.store text value time id mask)
  | .change (.purge text) => .entry (t.purge text).1
  | .change .prune => .number t.dropped
  | .change (.trim kept) => .number (t.excess kept)
  | .check text value time => .ofExcept (t.checkWrite text value time)
  | .lookup text => .entry (t.lookup text)
  | .count => .number t.entryCount
  | .list => .entries (t.entriesUnder 0)

/-- The arena that a call leaves behind. -/
def behind (t : Arena) : Call → Arena
  | .change c => t.perform c
  | _ => t

/-- The arena that calls leave behind, one after the other. -/
def run (t : Arena) (calls : List Call) : Arena :=
  calls.foldl behind t

/-- What an arena answers to calls, one after the other. -/
def answers (t : Arena) : List Call → List Answer
  | [] => []
  | call :: calls => t.answer call :: (t.behind call).answers calls

theorem answer_tree (t : Arena) (call : Call) :
    t.answer call = t.tree.answer call := by
  match call with
  | .change (.store text value time id mask) =>
    rw [answer, Directory.answer, ← store_tree]
    cases t.store text value time id mask <;> rfl
  | .change (.purge text) =>
    exact congrArg Answer.entry (congrArg Prod.fst (t.purge_tree text))
  | .change .prune => exact congrArg Answer.number t.dropped_tree
  | .change (.trim kept) => exact congrArg Answer.number (t.excess_tree kept)
  | .check text value time =>
    exact congrArg Answer.ofExcept (t.checkWrite_tree text value time)
  | .lookup text => exact congrArg Answer.entry (t.lookup_tree text)
  | .count => exact congrArg Answer.number t.entryCount_tree
  | .list =>
    rw [answer, Directory.answer, entriesUnder_directory, segments_root]
    rfl

theorem behind_tree (t : Arena) (call : Call) :
    (t.behind call).tree = t.tree.behind call := by
  match call with
  | .change (.store text value time id mask) =>
    rw [behind, Directory.behind, perform, Directory.perform, ← store_tree]
    cases t.store text value time id mask <;> rfl
  | .change (.purge text) => exact congrArg Prod.snd (t.purge_tree text)
  | .change .prune => exact t.prune_tree
  | .change (.trim kept) => exact t.trim_tree kept
  | .check _ _ _ | .lookup _ | .count | .list => rfl

theorem run_tree (t : Arena) (calls : List Call) :
    (t.run calls).tree = calls.foldl Directory.behind t.tree := by
  induction calls generalizing t with
  | nil => rfl
  | cons call calls ih =>
    rw [List.foldl_cons, ← behind_tree]
    exact ih (t.behind call)

/-! ## Equal arenas -/

/-- Equal arenas answer runs of calls that store no NaN with equal answers, and
are equal behind them. -/
theorem beq_run (h : t == u) {calls : List Call}
    (hcalls : ∀ call ∈ calls, call.IsSelfEqual) :
    t.run calls == u.run calls ∧
      List.Forall₂ Answer.Agrees (t.answers calls) (u.answers calls) := by
  induction calls generalizing t u with
  | nil => exact ⟨h, .nil⟩
  | cons call calls ih =>
    obtain ⟨hcall, hcalls⟩ := List.forall_mem_cons.1 hcalls
    have htree := beq_iff_tree.1 h
    have hbehind : t.behind call == u.behind call := by
      rw [beq_iff_tree, behind_tree, behind_tree]
      exact (beq_behind_iff htree call).2 (Or.inl hcall)
    obtain ⟨hrun, hanswers⟩ := ih hbehind hcalls
    refine ⟨hrun, .cons ?_ hanswers⟩
    rw [answer_tree, answer_tree]
    exact agrees_answer htree call

/-- Equal arenas cannot be told apart.  A call of an arena is a call of its tree, the
answers of equal arenas are equal, and behind the call they are equal, except where
it has stored a NaN.  The same goes for runs of calls.  Equality of arenas is
symmetric and transitive. -/
theorem indistinguishable_of_beq (h : t == u) :
    (∀ call, t.answer call = t.tree.answer call ∧
      (t.behind call).tree = t.tree.behind call ∧
      (t.answer call).Agrees (u.answer call) ∧
      (t.behind call == u.behind call ↔
        call.IsSelfEqual ∨ ∃ reason, t.answer call = .refused reason)) ∧
    (∀ calls : List Call, (∀ call ∈ calls, call.IsSelfEqual) →
      t.run calls == u.run calls ∧
        List.Forall₂ Answer.Agrees (t.answers calls) (u.answers calls)) ∧
    u == t ∧ ∀ v, u == v → t == v := by
  have htree := beq_iff_tree.1 h
  refine ⟨fun call => ⟨answer_tree t call, behind_tree t call, ?_, ?_⟩,
    fun calls hcalls => beq_run h hcalls, ?_, fun v hv => ?_⟩
  · rw [answer_tree, answer_tree]
    exact agrees_answer htree call
  · rw [beq_iff_tree, behind_tree, behind_tree, answer_tree]
    exact beq_behind_iff htree call
  · exact beq_iff_tree.2 (PartialEquivBEq.symm htree)
  · exact beq_iff_tree.2 (PartialEquivBEq.trans htree (beq_iff_tree.1 hv))

/-- Directories that were added in another order have other numbers, and purging
and pruning show nothing of it. -/
theorem indistinguishable_of_other_order :
    let store (path : String) (n : Nat) : Call :=
      .change (.store path (.int (.ofNat n)) (.ofSecond n) n .retire)
    let t := empty.run [store "/a/b/x" 1, store "/c/y" 2, store "/a/d/z" 3]
    let u := empty.run [store "/a/b/x" 1, store "/a/d/z" 3, store "/c/y" 2]
    let calls := [.change (.purge "/a/b/x"), .change .prune, .list]
    t.nodes.map DirNode.name = ["", "a", "b", "c", "d"] ∧
      u.nodes.map DirNode.name = ["", "a", "b", "d", "c"] ∧ t == u ∧
      t.run calls == u.run calls ∧
        List.Forall₂ Answer.Agrees (t.answers calls) (u.answers calls) := by
  intro store t u calls
  have hequal : t == u := by
    rw [beq_iff_tree, run_tree, run_tree, tree_empty]
    decide +kernel
  obtain ⟨-, hrun, -⟩ := indistinguishable_of_beq hequal
  refine ⟨by decide +kernel, by decide +kernel, hequal, hrun calls ?_⟩
  simp [calls, Call.IsSelfEqual]

/-- Behind storing a NaN no arena is equal to itself. -/
theorem ne_behind_of_nan :
    let call : Call :=
      .change (.store "/k" (.float .nan) (.ofSecond 5) 1 .retire)
    empty == empty ∧ ¬ empty.behind call == empty.behind call := by
  intro call
  rw [beq_iff_tree, beq_iff_tree, behind_tree, tree_empty]
  decide +kernel

end SettingsArchive.Arena
