import SettingsArchive.Proofs.Arena.Building
import SettingsArchive.Proofs.Pruning

/-!
# The passes of pruning

Pruning goes over the table three times.  `mark` notes which directories hold an
entry, from the leaves up.  `visit` counts those that do not, with a stack of nodes
that are still to be looked at.  `copy` takes the nodes that are kept out of the old
table, one by one, and appends them to a new one.  A directory gets the number of a
copy only when the copy is complete.

Each pass agrees with what `Arena.prune` is made of: `mark_eq` with `live`,
`visit_perm` with `preorder`, and `copiesBelow` with `rebuild`.  The last rests on
`copyAll_modify`: a copy touches no node that was there before, so the link to it may
as well be made first.

`pruned_of_built` says what is left.
-/

namespace SettingsArchive

namespace Arena

open Directory

variable {t u : Arena} {i j c p n : Nat}

/-! ## Marking -/

/-- Notes for the nodes of a tree whether there is an entry at or below them, and
gives the note of the first. -/
def mark (t : Arena) (i : Nat) (keep : List Bool) : Bool × List Bool :=
  let below := (t.node i).children.attach.foldl (fun x c =>
      let marked := t.mark c.1 x.2
      (x.1 || marked.1, marked.2))
    (!(t.node i).entries.isEmpty, keep)
  (below.1, below.2.set i below.1)
termination_by t.size - i
decreasing_by exact size_sub_lt c.2

/-- The notes of some directories of one directory. -/
def markAll (t : Arena) (cs : List Nat) (x : Bool × List Bool) :
    Bool × List Bool :=
  cs.foldl (fun x c => (x.1 || (t.mark c x.2).1, (t.mark c x.2).2)) x

theorem mark_unfold (t : Arena) (i : Nat) (keep : List Bool) :
    t.mark i keep =
      let below := t.markAll (t.node i).children
        (!(t.node i).entries.isEmpty, keep)
      (below.1, below.2.set i below.1) := by
  rw [mark, markAll]
  conv_rhs => rw [← List.attach_map_subtype_val (t.node i).children]
  rw [List.foldl_map]

/-- The notes of a tree are made, and no others. -/
structure Marked (t : Arena) (below : Nat → Prop) (keep keep' : List Bool) :
    Prop where
  length : keep'.length = keep.length
  made : ∀ j < keep.length, below j → keep'[j]? = some (t.live j)
  others : ∀ j, ¬ below j → keep'[j]? = keep[j]?

/-- Notes for one directory and then for those behind it. -/
theorem Marked.cons {cs : List Nat} {keep keep' keep'' : List Bool}
    (h : Marked t (t.Below c) keep keep')
    (hrest : Marked t (fun j => ∃ d ∈ cs, t.Below d j) keep' keep'') :
    Marked t (fun j => ∃ d ∈ c :: cs, t.Below d j) keep keep'' where
  length := hrest.length.trans h.length
  made j hj hbelow := by
    by_cases hlater : ∃ d ∈ cs, t.Below d j
    · exact hrest.made j (h.length ▸ hj) hlater
    · rw [List.exists_mem_cons_iff] at hbelow
      exact (hrest.others j hlater).trans
        (h.made j hj (hbelow.resolve_right hlater))
  others j hj := by
    rw [List.exists_mem_cons_iff, not_or] at hj
    exact (hrest.others j hj.2).trans (h.others j hj.1)

theorem markAll_eq {cs : List Nat}
    (h : ∀ c ∈ cs, ∀ keep, (t.mark c keep).1 = t.live c ∧
      Marked t (t.Below c) keep (t.mark c keep).2) (x : Bool × List Bool) :
    (t.markAll cs x).1 = (x.1 || cs.any t.live) ∧
      Marked t (fun j => ∃ c ∈ cs, t.Below c j) x.2 (t.markAll cs x).2 := by
  induction cs generalizing x with
  | nil =>
    refine ⟨by simp [markAll], rfl, ?_, fun j _ => rfl⟩
    intro j _ hj
    simp at hj
  | cons c cs ih =>
    obtain ⟨hc, hcs⟩ := List.forall_mem_cons.1 h
    obtain ⟨hlive, hmarked⟩ := hc x.2
    obtain ⟨hany, hrest⟩ := ih hcs (x.1 || (t.mark c x.2).1, (t.mark c x.2).2)
    refine ⟨?_, hmarked.cons hrest⟩
    rw [List.any_cons, ← Bool.or_assoc, ← hlive]
    exact hany

theorem mark_eq (t : Arena) (i : Nat) (keep : List Bool) :
    (t.mark i keep).1 = t.live i ∧
      Marked t (t.Below i) keep (t.mark i keep).2 := by
  induction i using t.induction generalizing keep with
  | step i ih =>
    obtain ⟨hany, hbelow⟩ := markAll_eq ih (!(t.node i).entries.isEmpty, keep)
    rw [← live_eq] at hany
    rw [mark_unfold]
    refine ⟨hany, (List.length_set ..).trans hbelow.length, ?_, ?_⟩
    · intro j hj hij
      rw [List.getElem?_set]
      split
      · rename_i heq
        subst heq
        rw [if_pos (hbelow.length ▸ hj), hany]
      · rename_i hne
        rcases below_iff.1 hij with heq | hj'
        · exact absurd heq.symm hne
        · exact hbelow.made j hj hj'
    · intro j hij
      have hne : i ≠ j := fun heq => hij (heq ▸ Below.refl t i)
      rw [List.getElem?_set_ne hne]
      exact hbelow.others j fun ⟨c, hc, hj⟩ => hij (hj.head hc)

/-! ## Visiting -/

/-- The nodes that are reached from those of a stack, the top of which is taken
next.  The directories of a node are put on top of the others, the last one
uppermost. -/
def visit (t : Arena) : List Nat → List Nat
  | [] => []
  | i :: stack => i :: t.visit ((t.node i).children.reverse ++ stack)
termination_by stack => (stack.flatMap t.preorder).length
decreasing_by
  have hperm := (t.node i).children.reverse_perm.flatMap_right t.preorder
  have hlength := hperm.length_eq
  simp only [List.flatMap_append, List.flatMap_cons, List.length_append,
    preorder_eq t i, List.length_cons]
  omega

/-- All nodes of a tree are reached, each once. -/
theorem visit_perm (t : Arena) (stack : List Nat) :
    (t.visit stack).Perm (stack.flatMap t.preorder) := by
  induction stack using visit.induct t with
  | case1 =>
    rw [visit]
    exact .refl _
  | case2 i stack ih =>
    have hchildren := (t.node i).children.reverse_perm.flatMap_right t.preorder
    rw [visit, List.flatMap_cons, preorder_eq, List.cons_append]
    refine (ih.trans ?_).cons i
    rw [List.flatMap_append]
    exact hchildren.append_right _

/-! ## Copying -/

/-- A copy on its way: what is left of the old table, and the new one. -/
structure Copying where
  old : List (Option DirNode)
  nodes : List DirNode

namespace Copying

/-- How many nodes are left. -/
def left (s : Copying) : Nat :=
  s.old.countP Option.isSome

/-- Takes a node out of the old table, if it is still there. -/
def take? (s : Copying) (i : Nat) : Option (DirNode × Copying) :=
  match s.old[i]? with
  | some (some node) => some (node, { s with old := s.old.set i none })
  | _ => none

/-- Appends a node to the new table. -/
def push (s : Copying) (node : DirNode) : Copying :=
  { s with nodes := s.nodes ++ [node] }

/-- Changes a node of the new table. -/
def modify (s : Copying) (p : Nat) (f : DirNode → DirNode) : Copying :=
  { s with nodes := s.nodes.modify p f }

/-- Makes the node `c` a directory of the node `p`. -/
def link (s : Copying) (p c : Nat) : Copying :=
  s.modify p fun node => { node with children := node.children ++ [c] }

theorem left_of_take? {s s' : Copying} {node : DirNode}
    (h : s.take? i = some (node, s')) : s'.left < s.left := by
  unfold take? at h
  split at h
  · rename_i node hnode
    obtain ⟨-, rfl⟩ := Prod.mk.inj (Option.some.inj h)
    obtain ⟨hi, hget⟩ := List.getElem?_eq_some_iff.1 hnode
    have hpos : 0 < s.old.countP Option.isSome :=
      List.countP_pos_iff.2 ⟨_, List.mem_of_getElem? hnode, rfl⟩
    show (s.old.set i none).countP Option.isSome < s.old.countP Option.isSome
    rw [List.countP_set hi, hget]
    show s.old.countP Option.isSome - 1 + 0 < s.old.countP Option.isSome
    omega
  · cases h

end Copying

mutual

/-- Copies a node with what is kept below it to the end of the new table, as a node
of the directory `parent`, and gives its number.  A node that is gone is not
copied. -/
def copy (keep : List Bool) (i : Nat) (parent : Option Nat) (s : Copying) :
    { x : Option Nat × Copying // x.2.left ≤ s.left } :=
  match h : s.take? i with
  | none => ⟨(none, s), Nat.le_refl _⟩
  | some (node, taken) =>
    have hlt := Copying.left_of_take? h
    let copied := copyAll keep s.nodes.length node.children (taken.push
      { name := node.name, parent, entries := node.entries })
    ⟨(some s.nodes.length, copied.1), Nat.le_trans copied.2 (Nat.le_of_lt hlt)⟩
termination_by (s.left, 0)
decreasing_by exact Prod.Lex.left _ _ hlt

/-- Copies those of some nodes that are kept, one after the other, and links them to
the directory `p`. -/
def copyAll (keep : List Bool) (p : Nat) (cs : List Nat) (s : Copying) :
    { s' : Copying // s'.left ≤ s.left } :=
  match cs with
  | [] => ⟨s, Nat.le_refl _⟩
  | c :: cs =>
    if keep.getD c false then
      match copy keep c (some p) s with
      | ⟨(some m, s'), hle⟩ =>
        let rest := copyAll keep p cs (s'.link p m)
        ⟨rest.1, Nat.le_trans rest.2 hle⟩
      | ⟨(none, s'), hle⟩ =>
        let rest := copyAll keep p cs s'
        ⟨rest.1, Nat.le_trans rest.2 hle⟩
    else copyAll keep p cs s
termination_by (s.left, cs.length + 1)
decreasing_by
  · exact Prod.Lex.right _ (Nat.succ_pos _)
  · exact Prod.Lex.right' _ hle (Nat.lt_succ_self _)
  · exact Prod.Lex.right' _ hle (Nat.lt_succ_self _)
  · exact Prod.Lex.right _ (Nat.lt_succ_self _)

end

section Equations

variable {keep : List Bool} {parent : Option Nat} {s s' : Copying} {m : Nat}
  {cs : List Nat}

theorem copy_of_none (h : s.take? i = none) :
    (copy keep i parent s).1 = (none, s) := by
  rw [copy]
  split
  · rfl
  · rename_i hsome
    rw [h] at hsome
    cases hsome

theorem copy_of_some {node : DirNode} (h : s.take? i = some (node, s')) :
    (copy keep i parent s).1 = (some s.nodes.length,
      (copyAll keep s.nodes.length node.children
        (s'.push { name := node.name, parent, entries := node.entries })).1) := by
  rw [copy]
  split
  · rename_i hnone
    rw [h] at hnone
    cases hnone
  · rename_i hsome
    rw [h] at hsome
    cases hsome
    rfl

theorem copyAll_nil : (copyAll keep p [] s).1 = s := by
  rw [copyAll]

theorem copyAll_cons_of_dropped (hc : ¬ keep.getD c false) :
    (copyAll keep p (c :: cs) s).1 = (copyAll keep p cs s).1 := by
  rw [copyAll, if_neg hc]

theorem copyAll_cons_of_copied (hc : keep.getD c false)
    (h : (copy keep c (some p) s).1 = (some m, s')) :
    (copyAll keep p (c :: cs) s).1 = (copyAll keep p cs (s'.link p m)).1 := by
  rw [copyAll, if_pos hc]
  split
  · rename_i hcopy
    rw [hcopy] at h
    cases h
    rfl
  · rename_i hcopy
    rw [hcopy] at h
    cases h

theorem copyAll_cons_of_gone (hc : keep.getD c false)
    (h : (copy keep c (some p) s).1 = (none, s')) :
    (copyAll keep p (c :: cs) s).1 = (copyAll keep p cs s').1 := by
  rw [copyAll, if_pos hc]
  split
  · rename_i hcopy
    rw [hcopy] at h
    cases h
  · rename_i hcopy
    rw [hcopy] at h
    cases h
    rfl

end Equations

/-! ### Nodes that were there before -/

theorem modify_concat (nodes : List DirNode) (node : DirNode)
    (f : DirNode → DirNode) (h : p < nodes.length) :
    (nodes ++ [node]).modify p f = nodes.modify p f ++ [node] := by
  induction nodes generalizing p with
  | nil => exact absurd h (Nat.not_lt_zero p)
  | cons first nodes ih =>
    cases p with
    | zero => rfl
    | succ p => exact congrArg (first :: ·) (ih (Nat.lt_of_succ_lt_succ h))

namespace Copying

variable {s : Copying} {f : DirNode → DirNode}

theorem nodes_of_take? {s' : Copying} {node : DirNode}
    (h : s.take? i = some (node, s')) : s'.nodes = s.nodes := by
  unfold take? at h
  split at h
  · obtain ⟨-, rfl⟩ := Prod.mk.inj (Option.some.inj h)
    rfl
  · cases h

theorem take?_modify (s : Copying) (i p : Nat) (f : DirNode → DirNode) :
    (s.modify p f).take? i =
      (s.take? i).map fun x => (x.1, x.2.modify p f) := by
  unfold take?
  show (match s.old[i]? with | some (some node) => _ | _ => _) = _
  split <;> rfl

theorem push_modify (hp : p < s.nodes.length) (node : DirNode) :
    (s.modify p f).push node = (s.push node).modify p f :=
  congrArg (Copying.mk s.old) (modify_concat s.nodes node f hp).symm

theorem link_modify (hp : p ≠ n) (m : Nat) :
    (s.modify p f).link n m = (s.link n m).modify p f :=
  congrArg (Copying.mk s.old) (List.modify_modify_ne _ _ _ hp)

theorem length_modify (s : Copying) (p : Nat) (f : DirNode → DirNode) :
    (s.modify p f).nodes.length = s.nodes.length :=
  List.length_modify ..

end Copying

mutual

/-- A copy adds nodes, and changes none of those before. -/
theorem copy_modify (keep : List Bool) (i : Nat) (parent : Option Nat)
    (s : Copying) :
    s.nodes.length ≤ (copy keep i parent s).1.2.nodes.length ∧
      ∀ p f, p < s.nodes.length → (copy keep i parent (s.modify p f)).1 =
        ((copy keep i parent s).1.1, (copy keep i parent s).1.2.modify p f) := by
  cases h : s.take? i with
  | none =>
    rw [copy_of_none h]
    refine ⟨Nat.le_refl _, fun p f _ => ?_⟩
    rw [copy_of_none]
    rw [Copying.take?_modify, h]
    rfl
  | some x =>
    obtain ⟨node, taken⟩ := x
    have hlt := Copying.left_of_take? h
    have hnodes := Copying.nodes_of_take? h
    obtain ⟨hlength, hmodify⟩ := copyAll_modify keep s.nodes.length node.children
      (taken.push { name := node.name, parent, entries := node.entries })
    have hpush : (taken.push
        { name := node.name, parent, entries := node.entries }).nodes.length =
          s.nodes.length + 1 := by
      rw [← hnodes]
      exact List.length_append
    rw [hpush] at hlength hmodify
    rw [copy_of_some h]
    refine ⟨Nat.le_trans (Nat.le_succ _) hlength, fun p f hp => ?_⟩
    have hsome : (s.modify p f).take? i = some (node, taken.modify p f) := by
      rw [Copying.take?_modify, h]
      rfl
    rw [copy_of_some hsome, Copying.length_modify,
      Copying.push_modify (hnodes ▸ hp),
      hmodify p f (Nat.lt_succ_of_lt hp) (Nat.ne_of_lt hp)]
termination_by (s.left, 0)
decreasing_by exact Prod.Lex.left _ _ hlt

/-- Copies for the directory `n` add nodes, and change none of those before but
that directory. -/
theorem copyAll_modify (keep : List Bool) (n : Nat) (cs : List Nat)
    (s : Copying) :
    s.nodes.length ≤ (copyAll keep n cs s).1.nodes.length ∧
      ∀ p f, p < s.nodes.length → p ≠ n →
        (copyAll keep n cs (s.modify p f)).1 =
          (copyAll keep n cs s).1.modify p f := by
  match cs with
  | [] =>
    rw [copyAll_nil]
    exact ⟨Nat.le_refl _, fun p f _ _ => copyAll_nil⟩
  | c :: cs =>
    by_cases hc : keep.getD c false
    · obtain ⟨hcopy, hmodify⟩ := copy_modify keep c (some n) s
      have hle := (copy keep c (some n) s).2
      cases hx : (copy keep c (some n) s).1 with
      | mk number s' =>
        rw [hx] at hcopy hmodify hle
        cases number with
        | none =>
          obtain ⟨hrest, hmodifies⟩ := copyAll_modify keep n cs s'
          rw [copyAll_cons_of_gone hc hx]
          refine ⟨Nat.le_trans hcopy hrest, fun p f hp hne => ?_⟩
          rw [copyAll_cons_of_gone hc (hmodify p f hp),
            hmodifies p f (Nat.lt_of_lt_of_le hp hcopy) hne]
        | some m =>
          obtain ⟨hrest, hmodifies⟩ := copyAll_modify keep n cs (s'.link n m)
          rw [Copying.link, Copying.length_modify] at hrest hmodifies
          rw [copyAll_cons_of_copied hc hx]
          refine ⟨Nat.le_trans hcopy hrest, fun p f hp hne => ?_⟩
          rw [copyAll_cons_of_copied hc (hmodify p f hp),
            Copying.link_modify hne]
          exact hmodifies p f (Nat.lt_of_lt_of_le hp hcopy) hne
    · obtain ⟨hrest, hmodifies⟩ := copyAll_modify keep n cs s
      rw [copyAll_cons_of_dropped hc]
      refine ⟨hrest, fun p f hp hne => ?_⟩
      rw [copyAll_cons_of_dropped hc, hmodifies p f hp hne]
termination_by (s.left, cs.length + 1)
decreasing_by
  · exact Prod.Lex.right _ (Nat.succ_pos _)
  · exact Prod.Lex.right' _ hle (Nat.lt_succ_self _)
  · exact Prod.Lex.right' _ hle (Nat.lt_succ_self _)
  · exact Prod.Lex.right _ (Nat.lt_succ_self _)

end

/-! ### Copies of an arena -/

/-- The link to a copy may as well be made before the copy is complete, which is
how `addChild` makes it. -/
theorem copyAll_cons_eq {keep : List Bool} {old : List (Option DirNode)}
    (hkept : keep.getD c false) (hp : p < u.size)
    (hc : old[c]? = some (some (t.node c))) (cs : List Nat) :
    (copyAll keep p (c :: cs) ⟨old, u.nodes⟩).1 =
      (copyAll keep p cs (copyAll keep u.size (t.node c).children
        ⟨old.set c none,
          (u.addChild p (t.node c).name (t.node c).entries).nodes⟩).1).1 := by
  have htake : (Copying.mk old u.nodes).take? c =
      some (t.node c, ⟨old.set c none, u.nodes⟩) := by
    unfold Copying.take?
    rw [hc]
  let new : DirNode :=
    { name := (t.node c).name, parent := some p, entries := (t.node c).entries }
  let pushed : Copying := (Copying.mk (old.set c none) u.nodes).push new
  have hpushed : pushed.nodes.length = u.size + 1 := List.length_append
  have hlinked : pushed.link p u.size = ⟨old.set c none,
      (u.addChild p (t.node c).name (t.node c).entries).nodes⟩ := by
    rw [nodes_addChild hp]
    exact (Copying.push_modify (s := ⟨old.set c none, u.nodes⟩) hp new).symm
  have hmodify := (copyAll_modify keep u.size (t.node c).children pushed).2 p
    (fun node => { node with children := node.children ++ [u.size] })
    (by omega) (Nat.ne_of_lt hp)
  rw [copyAll_cons_of_copied hkept (copy_of_some htake), ← hlinked]
  exact congrArg (fun s => (copyAll keep p cs s).1) hmodify.symm

/-- The arena is copied to the new table, and of the old table the nodes `below` are
gone and the others as they were. -/
structure Copied (below : Nat → Prop) (old : List (Option DirNode)) (v : Arena)
    (s : Copying) : Prop where
  nodes : s.nodes = v.nodes
  others : ∀ j, ¬ below j → s.old[j]? = old[j]?

/-- What goes with one directory goes with it and those behind it. -/
theorem Copied.cons {old : List (Option DirNode)} {v w : Arena}
    {s s' : Copying} {cs : List Nat} (h : Copied (t.Below c) old v s)
    (hrest : Copied (fun j => ∃ d ∈ cs, t.Below d j) s.old w s') :
    Copied (fun j => ∃ d ∈ c :: cs, t.Below d j) old w s' where
  nodes := hrest.nodes
  others j hj := by
    rw [List.exists_mem_cons_iff, not_or] at hj
    exact (hrest.others j hj.2).trans (h.others j hj.1)

/-- Below the node `i` a copy does what `rebuild` does.  It takes the nodes there
out of the old table, and no others. -/
def CopiesBelow (t : Arena) (keep : List Bool) (i : Nat) : Prop :=
  ∀ {u : Arena} {p : Nat} {old : List (Option DirNode)}, p < u.size →
    (∀ j, (∃ c ∈ (t.node i).children, t.Below c j) →
      old[j]? = some (some (t.node j))) →
    Copied (fun j => ∃ c ∈ (t.node i).children, t.Below c j) old
      (t.rebuild i u p) (copyAll keep p (t.node i).children ⟨old, u.nodes⟩).1

/-- A node is taken out of the old table before those below it. -/
theorem copied_child {keep : List Bool} {v : Arena}
    {old : List (Option DirNode)} (h : t.CopiesBelow keep c) (hn : n < v.size)
    (hold : ∀ j, t.Below c j → old[j]? = some (some (t.node j))) :
    Copied (t.Below c) old (t.rebuild c v n)
      (copyAll keep n (t.node c).children ⟨old.set c none, v.nodes⟩).1 := by
  have hbelow : ∀ j, (∃ d ∈ (t.node c).children, t.Below d j) →
      (old.set c none)[j]? = some (some (t.node j)) := by
    intro j hj
    obtain ⟨d, hd, hdj⟩ := hj
    have hne : c ≠ j :=
      Nat.ne_of_lt (Nat.lt_of_lt_of_le (lt_of_mem_children hd) hdj.le)
    rw [List.getElem?_set_ne hne]
    exact hold j (hdj.head hd)
  have hcopy := h hn hbelow
  refine ⟨hcopy.nodes, fun j hj => ?_⟩
  have hnone : ¬ ∃ d ∈ (t.node c).children, t.Below d j := by
    intro hj'
    obtain ⟨d, hd, hdj⟩ := hj'
    exact hj (hdj.head hd)
  have hne : c ≠ j := fun heq => hj (heq ▸ Below.refl t c)
  rw [hcopy.others j hnone, List.getElem?_set_ne hne]

/-- Where each of some directories is copied like this, so are all of them, if no
two have anything below them in common. -/
theorem copied_all {keep : List Bool} {cs : List Nat}
    {old : List (Option DirNode)}
    (hkeep : ∀ c ∈ cs, keep.getD c false = t.live c)
    (hcopies : ∀ c ∈ cs, t.CopiesBelow keep c)
    (hapart : cs.Pairwise fun c d => ∀ j, t.Below d j → ¬ t.Below c j)
    (hp : p < u.size)
    (hold : ∀ j, (∃ c ∈ cs, t.Below c j) → old[j]? = some (some (t.node j))) :
    Copied (fun j => ∃ c ∈ cs, t.Below c j) old
      ((cs.filter t.live).foldl (fun u c => t.rebuild c
        (u.addChild p (t.node c).name (t.node c).entries) u.size) u)
      (copyAll keep p cs ⟨old, u.nodes⟩).1 := by
  induction cs generalizing u old with
  | nil =>
    rw [copyAll_nil]
    exact ⟨rfl, fun _ _ => rfl⟩
  | cons c cs ih =>
    obtain ⟨hlive, hkeep⟩ := List.forall_mem_cons.1 hkeep
    obtain ⟨hcopy, hcopies⟩ := List.forall_mem_cons.1 hcopies
    obtain ⟨hlater, hapart⟩ := List.pairwise_cons.1 hapart
    by_cases hkept : t.live c
    · let v := u.addChild p (t.node c).name (t.node c).entries
      have hsize : v.size = u.size + 1 := size_addChild hp
      have hnew : u.size < v.size := by omega
      have hchild := copied_child hcopy hnew fun j hj =>
        hold j ⟨c, List.mem_cons_self, hj⟩
      rw [copyAll_cons_eq (by rw [hlive]; exact hkept) hp
        (hold c ⟨c, List.mem_cons_self, Below.refl t c⟩),
        List.filter_cons_of_pos hkept, List.foldl_cons]
      -- The rest goes on from the arena that has the copy.
      cases hs : (copyAll keep u.size (t.node c).children
        ⟨old.set c none, v.nodes⟩).1 with
      | mk old' nodes =>
        rw [hs] at hchild
        obtain rfl : nodes = (t.rebuild c v u.size).nodes := hchild.nodes
        have hle := (attached_rebuild (t := t) (i := c) hnew).size
        have hstill : p < (t.rebuild c v u.size).size := by omega
        have hold' : ∀ j, (∃ d ∈ cs, t.Below d j) →
            old'[j]? = some (some (t.node j)) := by
          intro j hj
          obtain ⟨d, hd, hdj⟩ := hj
          exact (hchild.others j (hlater d hd j hdj)).trans
            (hold j ⟨d, List.mem_cons_of_mem c hd, hdj⟩)
        exact hchild.cons (ih hkeep hcopies hapart hstill hold')
    · have hrest := ih hkeep hcopies hapart hp fun j hj =>
        hold j (List.exists_mem_cons_of_exists hj)
      rw [copyAll_cons_of_dropped (by rw [hlive]; exact hkept),
        List.filter_cons_of_neg hkept]
      exact ⟨hrest.nodes, fun j hj =>
        hrest.others j fun hj' => hj (List.exists_mem_cons_of_exists hj')⟩

theorem copiesBelow {keep : List Bool}
    (hkeep : ∀ j, 0 < j → j < t.size → keep.getD j false = t.live j)
    (i : Nat) : t.CopiesBelow keep i := by
  induction i using t.induction with
  | step i ih =>
    intro u p old hp hold
    rw [rebuild_eq]
    have hlive : ∀ c ∈ (t.node i).children, keep.getD c false = t.live c := by
      intro c hc
      exact hkeep c (Nat.lt_of_le_of_lt (Nat.zero_le i) (lt_of_mem_children hc))
        (lt_size_of_mem_children hc)
    have hapart : (t.node i).children.Pairwise
        fun c d => ∀ j, t.Below d j → ¬ t.Below c j := by
      refine (t.layout.distinct i).imp_of_mem fun {c d} hc hd hne j hdj => ?_
      exact not_below_of_below hd hc (Ne.symm hne) hdj
    exact copied_all hlive ih hapart hp hold

/-! ## Pruning in three passes -/

/-- How many directories pruning drops, and the table that it leaves.  Where none is
dropped the table stays as it is. -/
def pruneEmpty (t : Arena) : Nat × List DirNode :=
  let keep := (t.mark 0 (List.replicate t.size false)).2.set 0 true
  let count := (t.visit [0]).countP fun i => !keep.getD i false
  if count = 0 then (0, t.nodes)
  else (count, (copy keep 0 none ⟨t.nodes.map some, []⟩).1.2.nodes)

/-- What the first pass marks, and the root. -/
def marks (t : Arena) : List Bool :=
  (t.mark 0 (List.replicate t.size false)).2.set 0 true

theorem getD_marks_root (t : Arena) : t.marks.getD 0 false = true := by
  have hlength : (t.mark 0 (List.replicate t.size false)).2.length = t.size :=
    (t.mark_eq 0 _).2.length.trans List.length_replicate
  rw [marks, List.getD_eq_getElem?_getD,
    List.getElem?_set_self (by rw [hlength]; exact t.size_pos)]
  rfl

theorem getD_marks {j : Nat} (hpos : 0 < j) (hj : j < t.size) :
    t.marks.getD j false = t.live j := by
  rw [marks, List.getD_eq_getElem?_getD, List.getElem?_set_ne (Nat.ne_of_lt hpos),
    (t.mark_eq 0 _).2.made j (by rwa [List.length_replicate]) (below_root hj)]
  rfl

/-- The second pass counts what is dropped. -/
theorem countP_marks (t : Arena) :
    ((t.visit [0]).countP fun i => !t.marks.getD i false) = t.dropped := by
  have hperm := t.visit_perm [0]
  rw [List.flatMap_singleton] at hperm
  rw [hperm.countP_eq, dropped]
  refine List.countP_congr fun j hj => ?_
  have hsize := (mem_preorder_iff.1 hj).lt_size t.size_pos
  rcases Nat.eq_zero_or_pos j with rfl | hpos
  · rw [getD_marks_root]
    simp
  · rw [getD_marks hpos hsize]
    simp [Nat.ne_of_gt hpos]

theorem getElem?_map_some {j : Nat} (hj : j < t.size) :
    (t.nodes.map some)[j]? = some (some (t.node j)) := by
  have hlength : j < t.nodes.length := hj
  simp [node, nodeAt, hlength]

/-- The third pass copies what is marked. -/
theorem copy_marks (t : Arena) :
    (copy t.marks 0 none ⟨t.nodes.map some, []⟩).1.2.nodes
      = (t.rebuild 0 (single (t.node 0).name (t.node 0).entries) 0).nodes := by
  have htake : (Copying.mk (t.nodes.map some) []).take? 0 =
      some (t.node 0, ⟨(t.nodes.map some).set 0 none, []⟩) := by
    unfold Copying.take?
    rw [getElem?_map_some t.size_pos]
  have hbelow : ∀ j, (∃ c ∈ (t.node 0).children, t.Below c j) →
      ((t.nodes.map some).set 0 none)[j]? = some (some (t.node j)) := by
    intro j hj
    obtain ⟨c, hc, hcj⟩ := hj
    have hne : 0 ≠ j :=
      Nat.ne_of_lt (Nat.lt_of_lt_of_le (lt_of_mem_children hc) hcj.le)
    rw [List.getElem?_set_ne hne]
    exact getElem?_map_some (hcj.lt_size (lt_size_of_mem_children hc))
  rw [copy_of_some htake]
  exact (copiesBelow (fun _ => getD_marks) 0
    (size_pos (single (t.node 0).name (t.node 0).entries)) hbelow).nodes

/-- The three passes leave the pruned arena. -/
theorem pruneEmpty_eq (t : Arena) : t.pruneEmpty = (t.dropped, t.prune.nodes) := by
  have hunfold : t.pruneEmpty =
      if ((t.visit [0]).countP fun i => !t.marks.getD i false) = 0 then (0, t.nodes)
      else ((t.visit [0]).countP fun i => !t.marks.getD i false,
        (copy t.marks 0 none ⟨t.nodes.map some, []⟩).1.2.nodes) := rfl
  rw [hunfold, countP_marks, copy_marks, prune]
  split
  · rename_i hnone
    rw [hnone]
  · rfl

end Arena

end SettingsArchive
