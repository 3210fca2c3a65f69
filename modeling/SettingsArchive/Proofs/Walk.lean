import SettingsArchive.Proofs.History

/-!
# The walk through what is seen

A setting that is seen has a history: that of its own entry, newest first, and
behind it those of the entries that it hides.  `Target.walk` is this history.

Steps count along the walk.  A date and a number look for an entry instead, the
nearest one that has a revision of the kind (`IsNearest`), and then for the
revision in it.  In an entry whose history is in order there is only one revision
that a number means, and only one that is the greatest by its date and number
(`Entry.latestBy?_eq_some_iff`).

`Target.resolveChain_of_ordered` says so for every target and every chain.
-/

namespace SettingsArchive

/-! ## Instants -/

namespace Instant

theorem le_refl (t : Instant) : t ≤ t :=
  Or.inr ⟨rfl, Nat.le_refl _⟩

theorem lt_or_eq_of_le {t u : Instant} (h : t ≤ u) : t < u ∨ t = u := by
  rcases h with h | ⟨hsecond, hnano⟩
  · exact Or.inl (Or.inl h)
  · rcases Nat.lt_or_eq_of_le hnano with h | h
    · exact Or.inl (Or.inr ⟨hsecond, h⟩)
    · cases t
      cases u
      cases hsecond
      cases h
      exact Or.inr rfl

theorem lt_irrefl (t : Instant) : ¬ t < t :=
  not_lt.2 (le_refl t)

theorem lt_asymm {t u : Instant} (h : t < u) : ¬ u < t := by
  change t.second < u.second ∨ (t.second = u.second ∧ t.nano < u.nano) at h
  show ¬ (u.second < t.second ∨ (u.second = t.second ∧ u.nano < t.nano))
  omega

end Instant

/-! ## Histories in order -/

namespace Revision

/-- A revision is not above another one by its date and, on one date, by its
number. -/
def IsAtMost (r s : Revision) : Prop :=
  r.time < s.time ∨ r.time = s.time ∧ r.id ≤ s.id

theorem IsAtMost.refl (r : Revision) : r.IsAtMost r :=
  Or.inr ⟨rfl, Nat.le_refl _⟩

/-- Two revisions of which neither is above the other have one number. -/
theorem IsAtMost.id_eq {r s : Revision} (h : r.IsAtMost s) (k : s.IsAtMost r) :
    r.id = s.id := by
  rcases h with h | ⟨htime, hid⟩
  · rcases k with k | ⟨ktime, -⟩
    · exact absurd k (Instant.lt_asymm h)
    · rw [ktime] at h
      exact absurd h (Instant.lt_irrefl _)
  · rcases k with k | ⟨-, kid⟩
    · rw [htime] at k
      exact absurd k (Instant.lt_irrefl _)
    · exact Nat.le_antisymm hid kid

end Revision

namespace Entry

variable {e : Entry} {r : Revision}

/-- The revisions are numbered upwards, and their instants never go back. -/
def IsOrdered (e : Entry) : Prop :=
  e.revisions.Pairwise fun r s => r.id < s.id ∧ r.time ≤ s.time

instance (e : Entry) : Decidable e.IsOrdered :=
  inferInstanceAs (Decidable (List.Pairwise _ _))

/-- A revision is known by its number. -/
theorem IsOrdered.eq_of_id (h : e.IsOrdered) {s : Revision}
    (hr : r ∈ e.revisions) (hs : s ∈ e.revisions) (hid : r.id = s.id) : r = s := by
  have hnodup : (e.revisions.map Revision.id).Nodup :=
    List.pairwise_map.2 (List.Pairwise.imp (fun hrs => Nat.ne_of_lt hrs.1) h)
  exact List.inj_on_of_nodup_map hnodup hr hs hid

/-- The latest revision by an instant is the greatest one of those that are not
behind it. -/
theorem latestBy?_eq_some_iff (h : e.IsOrdered) (time : Instant) :
    e.latestBy? time = some r ↔
      r ∈ e.revisions ∧ r.time ≤ time ∧
        ∀ s ∈ e.revisions, s.time ≤ time → s.IsAtMost r := by
  have hgreatest : ∀ r, e.latestBy? time = some r →
      r ∈ e.revisions ∧ r.time ≤ time ∧
        ∀ s ∈ e.revisions, s.time ≤ time → s.IsAtMost r := by
    intro r hr
    rw [latestBy?, newestFirst_eq, List.find?_eq_some_iff_append] at hr
    obtain ⟨htime, newer, older, hsplit, hnewer⟩ := hr
    have hrevisions : e.revisions = older.reverse ++ r :: newer.reverse := by
      rw [← List.reverse_reverse e.revisions, hsplit]
      simp
    refine ⟨by simp [hrevisions], by simpa using htime, ?_⟩
    intro s hs hstime
    rw [hrevisions, List.mem_append, List.mem_cons] at hs
    rcases hs with hs | rfl | hs
    · -- What is older than the revision is not above it.
      have hpairs : (older.reverse ++ r :: newer.reverse).Pairwise
          fun r s : Revision => r.id < s.id ∧ r.time ≤ s.time :=
        hrevisions ▸ h
      obtain ⟨hid, hle⟩ :=
        (List.pairwise_append.1 hpairs).2.2 s hs r List.mem_cons_self
      rcases Instant.lt_or_eq_of_le hle with hlt | heq
      · exact Or.inl hlt
      · exact Or.inr ⟨heq, Nat.le_of_lt hid⟩
    · exact Revision.IsAtMost.refl s
    · have hbehind := hnewer s (List.mem_reverse.1 hs)
      simp [hstime] at hbehind
  constructor
  · exact hgreatest r
  · intro hr
    cases hlatest : e.latestBy? time with
    | none =>
      rw [latestBy?, newestFirst_eq, List.find?_eq_none] at hlatest
      have hbehind := hlatest r (List.mem_reverse.2 hr.1)
      simp [hr.2.1] at hbehind
    | some s =>
      obtain ⟨hs, htime, hmost⟩ := hgreatest s hlatest
      have hid := (hr.2.2 s hs htime).id_eq (hmost r hr.1 hr.2.1)
      rw [h.eq_of_id hs hr.1 hid]

theorem latestBy?_eq_none_iff (time : Instant) :
    e.latestBy? time = none ↔ ∀ r ∈ e.revisions, ¬ r.time ≤ time := by
  rw [latestBy?, newestFirst_eq, List.find?_eq_none]
  simp

/-- The revision of a number is the only one that has it. -/
theorem written?_eq_some_iff (h : e.IsOrdered) (id : Nat) :
    e.written? id = some r ↔
      r ∈ e.revisions ∧ r.id = id ∧ ∀ s ∈ e.revisions, s.id = id → s = r := by
  constructor
  · intro hr
    have hmem := List.mem_of_find?_eq_some hr
    have hid : r.id = id := by simpa using List.find?_some hr
    refine ⟨hmem, hid, fun s hs hsid => ?_⟩
    exact h.eq_of_id hs hmem (hsid.trans hid.symm)
  · intro hr
    cases hwritten : e.written? id with
    | none =>
      rw [written?, List.find?_eq_none] at hwritten
      have hne := hwritten r hr.1
      simp [hr.2.1] at hne
    | some s =>
      have hsid : s.id = id := by simpa using List.find?_some hwritten
      rw [hr.2.2 s (List.mem_of_find?_eq_some hwritten) hsid]

theorem written?_eq_none_iff (id : Nat) :
    e.written? id = none ↔ ∀ r ∈ e.revisions, ¬ r.id = id := by
  rw [written?, List.find?_eq_none]
  simp

/-- The revision before the head is the last but one, if there are two. -/
theorem previous?_eq (e : Entry) :
    e.previous? =
      if 2 ≤ e.revisions.length then e.revisions[e.revisions.length - 2]?
      else none := by
  rw [previous?, revisions, List.getLast?_eq_getElem?, List.length_append,
    List.length_singleton]
  cases hpast : e.past with
  | nil => rfl
  | cons r past =>
    rw [if_pos (by simp), List.getElem?_append_left (by simp)]
    simp

end Entry

/-! ## The walk -/

namespace Target

/-- The history of what is seen: the revisions of a chain of entries, newest
first, entry after entry. -/
def walk (chain : List Entry) : List Revision :=
  chain.flatMap fun e => e.revisions.reverse

/-- The entry is the nearest one of a chain that has such a revision. -/
structure IsNearest (p : Revision → Prop) (chain : List Entry) (e : Entry) :
    Prop where
  has : ∃ r ∈ e.revisions, p r
  first : ∃ front behind, chain = front ++ e :: behind ∧
    ∀ d ∈ front, ∀ r ∈ d.revisions, ¬ p r

theorem IsNearest.mem {p : Revision → Prop} {chain : List Entry} {e : Entry}
    (h : IsNearest p chain e) : e ∈ chain := by
  obtain ⟨front, behind, hchain, -⟩ := h.first
  rw [hchain]
  exact List.mem_append_right _ List.mem_cons_self

section Walk

variable {chain : List Entry} {r : Revision}

theorem flatMap_newestFirst (chain : List Entry) :
    chain.flatMap Entry.newestFirst = walk chain :=
  List.flatMap_congr fun e _ => e.newestFirst_eq

theorem walk_eq_nil_iff : walk chain = [] ↔ chain = [] := by
  rw [walk, List.flatMap_eq_nil_iff]
  constructor
  · intro h
    refine List.eq_nil_iff_forall_not_mem.2 fun e he => ?_
    have hnil := h e he
    simp [Entry.revisions] at hnil
  · intro h e he
    rw [h] at he
    cases he

/-- The last of the first revisions of a walk is the one of that number, or the
last of all. -/
theorem getLast?_take_succ {α : Type} (xs : List α) (count : Nat) :
    (xs.take (count + 1)).getLast? = xs[min count (xs.length - 1)]? := by
  rw [List.getLast?_eq_getElem?, List.length_take]
  cases xs with
  | nil => simp
  | cons x xs =>
    rw [List.length_cons, List.getElem?_take_of_lt (by omega)]
    congr 1
    omega

/-- A chain goes back to what its nearest entry goes back to. -/
theorem findSome?_eq_some_iff_nearest {p : Revision → Prop}
    {find : Entry → Option Revision} (hnone : ∀ e, find e = none ↔
      ∀ r ∈ e.revisions, ¬ p r) :
    chain.findSome? find = some r ↔
      ∃ e, IsNearest p chain e ∧ find e = some r := by
  rw [List.findSome?_eq_some_iff]
  constructor
  · intro ⟨front, e, behind, hchain, he, hfront⟩
    have hhas : ∃ r ∈ e.revisions, p r := by
      by_contra hnot
      have hfind := (hnone e).2 fun r hr hp => hnot ⟨r, hr, hp⟩
      rw [hfind] at he
      cases he
    exact ⟨e, ⟨hhas, front, behind, hchain,
      fun d hd => (hnone d).1 (hfront d hd)⟩, he⟩
  · intro ⟨e, ⟨_, front, behind, hchain, hfront⟩, he⟩
    exact ⟨front, e, behind, hchain, he,
      fun d hd => (hnone d).2 (hfront d hd)⟩

theorem findSome?_isSome_iff {p : Revision → Prop}
    {find : Entry → Option Revision} (hnone : ∀ e, find e = none ↔
      ∀ r ∈ e.revisions, ¬ p r) :
    (chain.findSome? find).isSome ↔ ∃ e ∈ chain, ∃ r ∈ e.revisions, p r := by
  rw [List.findSome?_isSome_iff]
  refine exists_congr fun e => and_congr_right fun _ => ?_
  rw [Option.isSome_iff_ne_none, ne_eq, hnone]
  simp

end Walk

/-! ## Targets -/

theorem resolveChain_last (chain : List Entry) :
    Target.last.resolveChain chain = (walk chain)[1]? := by
  rw [← flatMap_newestFirst]
  rfl

/-- Steps stop at the end of the walk. -/
theorem resolveChain_steps (chain : List Entry) (count : Nat) :
    (Target.steps count).resolveChain chain =
      (walk chain)[min count ((walk chain).length - 1)]? := by
  rw [← getLast?_take_succ, ← flatMap_newestFirst]
  rfl

/-- There are steps in every chain but the empty one. -/
theorem resolveChain_steps_eq_none_iff {chain : List Entry} {count : Nat} :
    (Target.steps count).resolveChain chain = none ↔ chain = [] := by
  rw [resolveChain_steps, List.getElem?_eq_none_iff, ← walk_eq_nil_iff,
    ← List.length_eq_zero_iff]
  omega

/-- Where numbers end at a limit, steps are counted up to it, which makes no
difference in a walk that is not longer. -/
theorem getLast?_take_min {chain : List Entry} {count limit : Nat}
    (h : count < limit ∨ (walk chain).length ≤ limit) :
    ((walk chain).take (min (count + 1) limit)).getLast? =
      (Target.steps count).resolveChain chain := by
  rw [resolveChain_steps, ← getLast?_take_succ]
  rcases h with h | h
  · rw [Nat.min_eq_left h]
  · rcases Nat.le_total (count + 1) limit with hle | hle
    · rw [Nat.min_eq_left hle]
    · rw [Nat.min_eq_right hle, List.take_of_length_le h,
        List.take_of_length_le (Nat.le_trans h hle)]

/-- Where a chain has one entry, it goes back to what the entry goes back to. -/
theorem resolveChain_singleton (t : Target) (e : Entry) :
    t.resolveChain [e] = t.resolve e := by
  have hwalk : walk [e] = e.revisions.reverse := List.flatMap_singleton _ _
  have hlength : e.revisions.length = e.past.length + 1 := by
    simp [Entry.revisions]
  cases t with
  | date time => exact List.findSome?_singleton
  | revision id => exact List.findSome?_singleton
  | last =>
    show Target.last.resolveChain [e] = e.previous?
    rw [resolveChain_last, hwalk, e.previous?_eq]
    split
    · rw [List.getElem?_reverse (by omega)]
      congr 1
    · exact List.getElem?_eq_none (by simp; omega)
  | steps count =>
    show (Target.steps count).resolveChain [e] = e.stepsBack? count
    rw [resolveChain_steps, hwalk, List.length_reverse, Entry.stepsBack?,
      List.getElem?_reverse (by omega)]
    congr 1
    omega

/-- What a target means in a chain of entries whose histories are in order.  The
last value is the second of the walk.  Steps count along the walk up to its end,
also where numbers end at a limit that the walk does not exceed.  A date and a
number mean a revision of the nearest entry that has one: the greatest one that is
not behind the date, and the only one of the number.  In a chain of one entry a
target means what it means in the entry. -/
theorem resolveChain_of_ordered {chain : List Entry}
    (h : ∀ e ∈ chain, e.IsOrdered) :
    Target.last.resolveChain chain = (walk chain)[1]? ∧
    (∀ count,
      (Target.steps count).resolveChain chain =
        (walk chain)[min count ((walk chain).length - 1)]? ∧
      ((Target.steps count).resolveChain chain = none ↔ chain = []) ∧
      ∀ limit, count < limit ∨ (walk chain).length ≤ limit →
        ((walk chain).take (min (count + 1) limit)).getLast? =
          (Target.steps count).resolveChain chain) ∧
    (∀ time,
      (((Target.date time).resolveChain chain).isSome ↔
        ∃ e ∈ chain, ∃ r ∈ e.revisions, r.time ≤ time) ∧
      ∀ r, (Target.date time).resolveChain chain = some r ↔
        ∃ e, IsNearest (·.time ≤ time) chain e ∧ r ∈ e.revisions ∧
          r.time ≤ time ∧ ∀ s ∈ e.revisions, s.time ≤ time → s.IsAtMost r) ∧
    (∀ id,
      (((Target.revision id).resolveChain chain).isSome ↔
        ∃ e ∈ chain, ∃ r ∈ e.revisions, r.id = id) ∧
      ∀ r, (Target.revision id).resolveChain chain = some r ↔
        ∃ e, IsNearest (·.id = id) chain e ∧ r ∈ e.revisions ∧ r.id = id ∧
          ∀ s ∈ e.revisions, s.id = id → s = r) ∧
    ∀ e, chain = [e] →
      (∀ t : Target, t.resolveChain chain = t.resolve e) ∧
      (∀ time, (Target.date time).resolveChain chain = e.latestBy? time) ∧
      Target.last.resolveChain chain = e.previous? ∧
      (∀ count, (Target.steps count).resolveChain chain = e.stepsBack? count) ∧
      ∀ id, (Target.revision id).resolveChain chain = e.written? id := by
  refine ⟨resolveChain_last chain, ?_, ?_, ?_, ?_⟩
  · intro count
    refine ⟨resolveChain_steps chain count, resolveChain_steps_eq_none_iff, ?_⟩
    intro limit hlimit
    exact getLast?_take_min hlimit
  · intro time
    refine ⟨findSome?_isSome_iff fun e => e.latestBy?_eq_none_iff time, ?_⟩
    intro r
    apply (findSome?_eq_some_iff_nearest
      fun e => e.latestBy?_eq_none_iff time).trans
    refine exists_congr fun e => and_congr_right fun hnearest => ?_
    exact Entry.latestBy?_eq_some_iff (h e hnearest.mem) time
  · intro id
    refine ⟨findSome?_isSome_iff fun e => e.written?_eq_none_iff id, ?_⟩
    intro r
    apply (findSome?_eq_some_iff_nearest
      fun e => e.written?_eq_none_iff id).trans
    refine exists_congr fun e => and_congr_right fun hnearest => ?_
    exact Entry.written?_eq_some_iff (h e hnearest.mem) id
  · intro e he
    subst he
    exact ⟨fun t => resolveChain_singleton t e,
      fun time => resolveChain_singleton (.date time) e,
      resolveChain_singleton .last e,
      fun count => resolveChain_singleton (.steps count) e,
      fun id => resolveChain_singleton (.revision id) e⟩

/-- The walk crosses from an entry into the one that it hides, in which the greatest
of two revisions of one date is the one of the larger number. -/
theorem resolveChain_of_hidden_entry :
    let revision (id : Nat) (second : Int) : Revision :=
      ⟨id, .ofSecond second, .int (.ofNat id), .retire, false⟩
    let own : Entry := ⟨"k", [], revision 5 30⟩
    let hidden : Entry := ⟨"k", [revision 1 0, revision 2 10], revision 3 10⟩
    let chain := [own, hidden]
    (∀ e ∈ chain, e.IsOrdered) ∧
      (walk chain).map Revision.id = [5, 3, 2, 1] ∧
      Target.last.resolveChain chain = some (revision 3 10) ∧
      (Target.steps Numeral.maxWord).resolveChain chain = some (revision 1 0) ∧
      (Target.date (.ofSecond 10)).resolveChain chain = some (revision 3 10) ∧
      (Target.revision 5).resolveChain chain = some (revision 5 30) := by
  intro revision own hidden chain
  have hordered : ∀ e ∈ chain, e.IsOrdered := by
    show ∀ e ∈ [own, hidden], e.IsOrdered
    decide
  obtain ⟨hlast, hsteps, hdate, hrevision, -⟩ := resolveChain_of_ordered hordered
  refine ⟨hordered, rfl, hlast, ?_, ?_, ?_⟩
  · exact (hsteps Numeral.maxWord).1
  · apply ((hdate (.ofSecond 10)).2 _).2
    have hnearest : IsNearest (·.time ≤ .ofSecond 10) chain hidden :=
      ⟨⟨revision 3 10, hidden.head_mem_revisions, by decide⟩, [own], [], rfl, by
        decide⟩
    refine ⟨hidden, hnearest, hidden.head_mem_revisions, by decide, ?_⟩
    intro s hs _
    have hmem : s = revision 1 0 ∨ s = revision 2 10 ∨ s = revision 3 10 := by
      simpa [Entry.revisions, hidden] using hs
    rcases hmem with rfl | rfl | rfl
    · exact Or.inl (by decide)
    · exact Or.inr (by decide)
    · exact Revision.IsAtMost.refl _
  · apply ((hrevision 5).2 _).2
    have hnearest : IsNearest (·.id = 5) chain own :=
      ⟨⟨revision 5 30, own.head_mem_revisions, rfl⟩, [], [hidden], rfl,
        fun _ hd => absurd hd List.not_mem_nil⟩
    refine ⟨own, hnearest, own.head_mem_revisions, rfl, ?_⟩
    intro s hs _
    simpa [Entry.revisions, own] using hs

end Target

end SettingsArchive
