import SettingsArchive.Proofs.Recorded

/-!
# Growth

Writes only add to what histories record.  `Archive.Grown` compares an archive
with a later one: the locations and their links are the same, and each record
goes on with values written behind an instant.  Writes behind the instant grow
an archive (`grown_run`), and in what has grown the latest value at or before the
instant is the one that was current before, or there is none
(`Location.Grown.latestBy?_eq`).
-/

namespace SettingsArchive

open Directory

namespace Entry

/-- The latest value by an instant is looked up in the record. -/
theorem latestBy?_eq (e : Entry) (t : Instant) :
    (e.latestBy? t).map (fun r => (r.time, r.value)) =
      e.recorded.reverse.find? fun x => decide (x.1 ≤ t) := by
  rw [latestBy?, newestFirst_eq, recorded, ← List.map_reverse, List.find?_map]
  rfl

end Entry

/-- A later state of a location, with the same links.  Its records go on with
values that are written behind an instant. -/
structure Location.Grown (t : Instant) (l m : Location) : Prop where
  id : m.id = l.id
  parent : m.parent = l.parent
  recorded : ∀ path, ∃ new,
    m.tree.recorded path = l.tree.recorded path ++ new ∧ ∀ x ∈ new, t < x.1

namespace Location

variable {t : Instant} {l m n : Location}

theorem Grown.refl (l : Location) : l.Grown t l :=
  ⟨rfl, rfl, fun path => ⟨[], by simp, by simp⟩⟩

theorem Grown.trans (h : l.Grown t m) (k : m.Grown t n) : l.Grown t n := by
  refine ⟨k.id.trans h.id, k.parent.trans h.parent, fun path => ?_⟩
  obtain ⟨new, hm, hnew⟩ := h.recorded path
  obtain ⟨newer, hn, hnewer⟩ := k.recorded path
  exact ⟨new ++ newer, by rw [hn, hm, List.append_assoc],
    List.forall_mem_append.2 ⟨hnew, hnewer⟩⟩

/-- Writes behind the instant grow a location. -/
theorem Written.grown {time : Instant} {number : Nat} {mask : Mask}
    {items : List (Path × Value)} (h : l.Written time number mask items m)
    (ht : t < time) : l.Grown t m := by
  refine ⟨h.id, h.parent, fun path => ⟨_, h.tree.recorded path, ?_⟩⟩
  intro x hx
  obtain ⟨y, -, rfl⟩ := List.mem_map.1 hx
  exact ht

/-- A setting that was there is there. -/
theorem Grown.exists_get? (h : l.Grown t m) {path : Path} {e : Entry}
    (he : l.tree.get? path = some e) : ∃ e, m.tree.get? path = some e := by
  rw [← Option.ne_none_iff_exists', ne_eq, ← recorded_eq_nil_iff]
  obtain ⟨new, hnew, -⟩ := h.recorded path
  rw [hnew, recorded_of_get? he]
  simp [e.recorded_ne_nil]

/-- If all that was recorded is by the instant, the latest value by the instant
is the one that was current. -/
theorem Grown.latestBy?_eq (h : l.Grown t m) {path : Path}
    (hold : ∀ x ∈ l.tree.recorded path, x.1 ≤ t) {e : Entry}
    (he : m.tree.get? path = some e) :
    (e.latestBy? t).map Revision.value =
      (l.tree.get? path).map Entry.current := by
  obtain ⟨new, hnew, hlater⟩ := h.recorded path
  have hnone : new.reverse.find? (fun x => decide (x.1 ≤ t)) = none := by
    rw [List.find?_eq_none]
    intro x hx
    have hlt := hlater x (List.mem_reverse.1 hx)
    simpa [← Instant.not_lt] using hlt
  have hfound : (e.latestBy? t).map (fun r => (r.time, r.value)) =
      (l.tree.recorded path).reverse.find? fun x => decide (x.1 ≤ t) := by
    rw [e.latestBy?_eq, ← recorded_of_get? he, hnew, List.reverse_append,
      List.find?_append, hnone, Option.none_or]
  have hvalue : (e.latestBy? t).map Revision.value =
      ((l.tree.recorded path).reverse.find?
        fun x => decide (x.1 ≤ t)).map Prod.snd := by
    rw [← hfound, Option.map_map]
    rfl
  rw [hvalue]
  cases hl : l.tree.get? path with
  | none => rw [recorded_eq_nil_iff.2 hl]; rfl
  | some old =>
    have hlast := old.getLast?_recorded
    rw [recorded_of_get? hl] at hold ⊢
    rw [← List.head?_reverse] at hlast
    obtain ⟨rest, hrest⟩ := List.head?_eq_some_iff.1 hlast
    have hle : old.head.time ≤ t :=
      hold (old.head.time, old.current)
        (List.mem_reverse.1 (hrest ▸ List.mem_cons_self))
    rw [hrest, List.find?_cons_of_pos (by simpa using hle)]
    rfl

end Location

namespace Archive

variable {t : Instant} {a b c : Archive}

/-- A later state of an archive: every location has grown. -/
def Grown (t : Instant) (a b : Archive) : Prop :=
  ∃ g : Location → Location, b.locations = a.locations.map g ∧
    ∀ l ∈ a.locations, l.Grown t (g l)

theorem Grown.refl (a : Archive) : a.Grown t a :=
  ⟨id, (List.map_id _).symm, fun l _ => .refl l⟩

theorem Grown.trans (h : a.Grown t b) (k : b.Grown t c) : a.Grown t c := by
  obtain ⟨f, hb, hf⟩ := h
  obtain ⟨g, hc, hg⟩ := k
  refine ⟨g ∘ f, by rw [hc, hb, List.map_map], fun l hl => ?_⟩
  exact (hf l hl).trans (hg (f l) (hb ▸ List.mem_map_of_mem hl))

/-- A write behind the instant grows an archive. -/
theorem Write.grown {anchored : Prop} {time : Instant} {mask : Mask}
    (ha : a.WellFormed) (h : Write anchored time mask a b) (ht : t < time) :
    a.Grown t b := by
  cases h with
  | refused => exact .refl a
  | @written l m b items found location places distinct counted dirty =>
    have hlocations : (b.put m).locations = a.locations.map fun x =>
        if x.id = m.id then m else x := by
      rcases counted with ⟨-, rfl⟩ | ⟨-, rfl⟩ <;> rfl
    refine ⟨_, hlocations, fun x hx => ?_⟩
    split
    · rename_i hid
      obtain rfl :=
        List.inj_on_of_nodup_map ha.ids hx found (hid.trans location.id)
      exact location.grown ht
    · exact .refl x

/-- An operation that writes behind an instant. -/
def Operation.WritesAfter (t : Instant) (op : Operation) : Prop :=
  ∃ time, op.time? = some time ∧ t < time

/-- Writes behind the instant grow an archive. -/
theorem grown_run (ha : a.WellFormed) {ops : List Operation}
    (hops : ∀ op ∈ ops, op.WritesAfter t) : a.Grown t (a.run ops) := by
  refine (run_induction_step ha (Grown.refl a) ?_).2
  intro b op hop hb hgrown _
  obtain ⟨time, htime, hlt⟩ := hops op hop
  obtain ⟨mask, hmask⟩ := Operation.exists_mask? htime
  have hwrite : Write False time mask b (b.perform op) :=
    write_perform hb htime hmask nofun
  exact hgrown.trans (hwrite.grown hb hlt)

end Archive

end SettingsArchive
