import SettingsArchive.Proofs.Counting
import SettingsArchive.Proofs.OwnText
import SettingsArchive.Proofs.Recorded

/-!
# Opening a saved archive again

Nothing limits the instants of operations, and the offsets of a document may
lead out of the years that it can write.  A saved archive opens again only if
the year of every instant in it has four digits and no sign, and if what the
written instants of each setting stand for never goes back
(`shown_of_ofText_text`).  Nothing else stands in the way of what operations lead to.

The second condition is about leap seconds that end no minute.  They are written
as the second behind them, so a saved archive that holds one gives another instant
back, and one that was stored less than a second later stands before it then.

Instants come from the operations and from the document in the beginning only, so
what holds of these holds of all (`Step.everyInstant`).  What an archive reads
from its own text has plain years whatever it held before, and what is read from
any document ends its minutes.
-/

namespace SettingsArchive

open Directory Xml

/-! ## Instants that read back -/

namespace Instant

/-- The written form of the instant gives the instant back. -/
def ReadsBack (t : Instant) : Prop :=
  t.HasPlainYear ∧ t.EndsMinute

instance (t : Instant) : Decidable t.ReadsBack :=
  inferInstanceAs (Decidable (_ ∧ _))

theorem readRfc3339_eq_self_iff {t : Instant} :
    readRfc3339 t.rfc3339Chars = .ok t ↔ t.ReadsBack := by
  rw [readRfc3339_rfc3339Chars_eq_ok_iff, shown_eq_self_iff, ReadsBack]

theorem ReadsBack.shown {t : Instant} (h : t.ReadsBack) : t.shown.ReadsBack :=
  ⟨hasPlainYear_shown.2 h.1, t.endsMinute_shown⟩

theorem endsMinute_of_ofUnix? {second : Int} {nano : Nat} {t : Instant}
    (h : ofUnix? second nano = some t) : t.EndsMinute := by
  unfold ofUnix? at h
  split at h
  · rename_i hlimits
    obtain rfl := Option.some.inj h
    exact hlimits.2
  · cases h

/-- A leap second is read where it ends a minute only. -/
theorem endsMinute_of_readRfc3339 {cs : List Char} {t : Instant}
    (h : readRfc3339 cs = .ok t) : t.EndsMinute := by
  unfold readRfc3339 at h
  split at h
  · cases h
  obtain ⟨⟨d, cs⟩, -, h⟩ := bind_eq_ok h
  obtain ⟨cs, -, h⟩ := bind_eq_ok h
  obtain ⟨⟨time, cs⟩, -, h⟩ := bind_eq_ok h
  obtain ⟨⟨offset, cs⟩, -, h⟩ := bind_eq_ok h
  simp only [bind, Except.bind, pure, Except.pure] at h
  cases hlocal : ofLocal? d time offset with
  | none =>
    rw [hlocal] at h
    split at h
    · cases h
    · split at h <;> cases h
  | some u =>
    rw [hlocal] at h
    split at h
    · cases h
    · split at h
      · cases h
      · obtain rfl := Except.ok.inj h
        exact endsMinute_of_ofUnix? hlocal

end Instant

/-- Every instant of a tree is one of these. -/
def Directory.EveryInstant (P : Instant → Prop) (d : Directory) : Prop :=
  ∀ path, ∀ x ∈ d.recorded path, P x.1

theorem Directory.everyInstant_iff {P : Instant → Prop} {d : Directory} :
    d.EveryInstant P ↔ ∀ path e, d.get? path = some e →
      ∀ r ∈ e.revisions, P r.time := by
  constructor
  · intro h path e he r hr
    exact h path (r.time, r.value) (mem_recorded_iff.2 ⟨e, he, r, hr, rfl⟩)
  · intro h path x hx
    obtain ⟨e, he, r, hr, rfl⟩ := mem_recorded_iff.1 hx
    exact h path e he r hr

namespace Archive

variable {a b : Archive} {anchored : Prop} {time? : Option Instant}
  {P : Instant → Prop}

/-! ## Archives -/

/-- An instant of a revision in an archive. -/
def HasInstant (a : Archive) (t : Instant) : Prop :=
  ∃ l ∈ a.locations, ∃ path e, l.tree.get? path = some e ∧
    ∃ r ∈ e.revisions, r.time = t

/-- Every instant of an archive is one of these. -/
def EveryInstant (P : Instant → Prop) (a : Archive) : Prop :=
  ∀ l ∈ a.locations, l.tree.EveryInstant P

/-- What the written instants of each setting stand for never goes back. -/
def ShownInOrder (a : Archive) : Prop :=
  ∀ l ∈ a.locations, ∀ path e, l.tree.get? path = some e → e.ShownInOrder

theorem everyInstant_iff : a.EveryInstant P ↔ ∀ t, a.HasInstant t → P t := by
  constructor
  · rintro h t ⟨l, hl, path, e, he, r, hr, rfl⟩
    exact Directory.everyInstant_iff.1 (h l hl) path e he r hr
  · intro h l hl
    rw [Directory.everyInstant_iff]
    intro path e he r hr
    exact h r.time ⟨l, hl, path, e, he, r, hr, rfl⟩

theorem EveryInstant.and {Q : Instant → Prop} (hp : a.EveryInstant P)
    (hq : a.EveryInstant Q) : a.EveryInstant fun t => P t ∧ Q t :=
  fun l hl path x hx => ⟨hp l hl path x hx, hq l hl path x hx⟩

theorem EveryInstant.imp {Q : Instant → Prop} (h : a.EveryInstant P)
    (himp : ∀ t, P t → Q t) : a.EveryInstant Q :=
  fun l hl path x hx => himp x.1 (h l hl path x hx)

theorem hasInstant_of_mem_recorded {l : Location} (hl : l ∈ a.locations)
    {path : Path} {t : Instant}
    (ht : t ∈ (l.tree.recorded path).map Prod.fst) : a.HasInstant t := by
  obtain ⟨x, hx, rfl⟩ := List.mem_map.1 ht
  obtain ⟨e, he, r, hr, rfl⟩ := mem_recorded_iff.1 hx
  exact ⟨l, hl, path, e, he, r, hr, rfl⟩

theorem isDated_of_shownInOrder (ha : a.WellFormed)
    (hyears : a.EveryInstant Instant.HasPlainYear) (horder : a.ShownInOrder) :
    a.contents.IsDated := by
  intro l hl x hx
  have hget := (ha.sound l hl).tree.mem_allEntries_iff.1 hx
  exact ⟨horder l hl x.1 x.2 hget,
    Directory.everyInstant_iff.1 (hyears l hl) x.1 x.2 hget⟩

/-- Where every leap second ends a minute, what is written is in the order of
the histories. -/
theorem shownInOrder_of_endsMinute (h : Reachable Operation.IsAnchored a)
    (hminutes : a.EveryInstant Instant.EndsMinute) : a.ShownInOrder :=
  fun l hl path e he => (h.hasHistories l hl path e he).history.shownInOrder
    (Directory.everyInstant_iff.1 (hminutes l hl) path e he)

theorem isDated_of_readsBack (h : Reachable Operation.IsAnchored a)
    (hread : a.EveryInstant Instant.ReadsBack) : a.contents.IsDated :=
  isDated_of_shownInOrder h.wellFormed (hread.imp fun _ ht => ht.1)
    (shownInOrder_of_endsMinute h (hread.imp fun _ ht => ht.2))

/-! ## Documents -/

/-- An archive is read from its own text only if its years are plain and what
its written instants stand for is in order.  Every instant of what is read is
one that was shown. -/
theorem shown_of_ofText_text (h : ofText a.text = .ok b) (ha : a.WellFormed)
    (hn : a.IsNumbered) :
    a.EveryInstant Instant.HasPlainYear ∧ a.ShownInOrder ∧
      ∀ t, b.HasInstant t → ∃ u, a.HasInstant u ∧ t = u.shown := by
  have hall := forall₂_of_ofText_text h
  refine ⟨?_, ?_, ?_⟩
  · intro l hl
    obtain ⟨m, -, hlm⟩ := exists_mem_of_forall₂ hall.flip hl
    rw [Directory.everyInstant_iff]
    intro path e he r hr
    exact Contents.hasPlainYear_of_readFrom hlm (ha.sound l hl).tree he hr
  · intro l hl path e he
    obtain ⟨m, -, hlm⟩ := exists_mem_of_forall₂ hall.flip hl
    exact Contents.shownInOrder_of_readFrom hlm (ha.sound l hl).tree he
      fun r hr => by
        have hlt := hn.below l hl path e he r hr
        have hbound := hn.number.bound
        omega
  · rintro t ⟨m, hm, path, e, he, s, hs, rfl⟩
    obtain ⟨l, hl, hlm⟩ := exists_mem_of_forall₂ hall hm
    obtain ⟨path, e, he, r, hr, htime, -⟩ :=
      Contents.exists_revision_of_readFrom hlm (ha.sound l hl).tree he hs
    exact ⟨r.time, ⟨l, hl, path, e, he, r, hr, rfl⟩, htime⟩

/-- An archive is read from its own text only if the instants that one setting
records have plain years and are shown in order. -/
theorem recorded_of_ofText_text (h : ofText a.text = .ok b)
    (ha : Reachable (fun _ => True) a) {path : Path} {times : List Instant}
    (htimes : times ∈ a.locations.map fun l =>
      (l.tree.recorded path).map Prod.fst) :
    (∀ t ∈ times, t.HasPlainYear) ∧
      times.Pairwise fun t u => t.shown ≤ u.shown := by
  obtain ⟨hyears, horder, -⟩ := shown_of_ofText_text h ha.wellFormed ha.isNumbered
  obtain ⟨l, hl, rfl⟩ := List.mem_map.1 htimes
  refine ⟨List.forall_mem_map.2 fun x hx => hyears l hl path x hx, ?_⟩
  cases he : l.tree.get? path with
  | none => simp [recorded, he]
  | some e =>
    rw [recorded_of_get? he, Entry.recorded, List.map_map, List.pairwise_map]
    exact horder l hl path e he

/-- Every leap second of a document ends a minute. -/
theorem IsStart.endsMinute (h : IsStart a) :
    a.EveryInstant Instant.EndsMinute := by
  intro l hl
  rw [Directory.everyInstant_iff]
  intro path e he r hr
  cases h with
  | fresh =>
    obtain rfl := List.mem_singleton.1 hl
    simp [Directory.empty] at he
  | read h =>
    obtain ⟨root, c, -, hread, rfl⟩ := of_ofText h
    obtain ⟨x, -, hlx⟩ := exists_mem_of_forall₂ hread.locations hl
    obtain ⟨above, y, -, hentry, -⟩ := hlx.get?_eq_some_iff.1 he
    obtain ⟨z, -, hz⟩ := exists_mem_of_forall₂
      (Contents.forall₂_of_readRevisions (Contents.of_readEntry hentry).2.2) hr
    obtain ⟨-, text, -, htime⟩ := Contents.of_readRevision hz
    exact Instant.endsMinute_of_readRfc3339 htime

/-! ## Operations -/

/-- A step whose instant is one of these keeps the instants among them, if what
is shown of each of them is one. -/
theorem Step.everyInstant (h : Step anchored time? a b) (ha : a.WellFormed)
    (hn : a.IsNumbered) (hp : a.EveryInstant P)
    (htime : ∀ t, time? = some t → P t) (hshown : ∀ t, P t → P t.shown) :
    b.EveryInstant P := by
  refine h.forall_tree (P := fun _ d => d.EveryInstant P) hp ?_ ?_ ?_
  · rw [Directory.everyInstant_iff]
    intro path e he
    simp [Directory.empty] at he
  · intro _ l hl d hedit path x hx
    rcases hedit.mem_recorded (ha.sound l hl).tree hx with hx | hx
    · exact hp l hl path x hx
    · exact htime x.1 hx
  · intro c hc
    have hread : c.EveryInstant P := everyInstant_iff.2 fun t ht => by
      obtain ⟨u, hu, rfl⟩ := (shown_of_ofText_text hc ha hn).2.2 t ht
      exact hshown u (everyInstant_iff.1 hp u hu)
    exact hread

theorem everyInstant_perform (ha : a.WellFormed) (hn : a.IsNumbered)
    (hp : a.EveryInstant P) (op : Operation)
    (htime : ∀ t, op.time? = some t → P t) (hshown : ∀ t, P t → P t.shown) :
    (a.perform op).EveryInstant P := by
  have hstep : Step False op.time? a (a.perform op) := step_perform ha op nofun
  exact hstep.everyInstant ha hn hp htime hshown

/-- Operations at these instants keep the instants among them. -/
theorem everyInstant_run (ha : a.WellFormed) (hn : a.IsNumbered)
    (hp : a.EveryInstant P) {ops : List Operation}
    (hops : ∀ op ∈ ops, ∀ t, op.time? = some t → P t)
    (hshown : ∀ t, P t → P t.shown) : (a.run ops).EveryInstant P := by
  have hrun : (a.run ops).IsNumbered ∧ (a.run ops).EveryInstant P := by
    refine (run_induction_step (P := fun b => b.IsNumbered ∧ b.EveryInstant P)
      ha ⟨hn, hp⟩ ?_).2
    rintro b op hop hb ⟨hnb, hpb⟩ hstep
    exact ⟨hstep.isNumbered hb hnb,
      hstep.everyInstant hb hnb hpb (hops op hop) hshown⟩
  exact hrun.2

/-- The written form of an instant in an archive reads back exactly if its year
has four digits and no sign and it is no leap second that ends no minute.  All
instants do so if those of the operations and of the beginning do.  The text of
the archive is read only if all years are plain and what is shown of each setting
is in order, and then it is, unless several paths of one write named one
setting. -/
theorem reopens_of_run (h : IsStart a) (ops : List Operation) :
    (∀ t, (a.run ops).HasInstant t →
      (Instant.readRfc3339 t.rfc3339Chars = .ok t ↔
        t.HasPlainYear ∧ t.EndsMinute)) ∧
    ((∀ t, a.HasInstant t → t.HasPlainYear) →
      (∀ op ∈ ops, ∀ t, op.time? = some t → t.HasPlainYear) →
      ∀ t, (a.run ops).HasInstant t → t.HasPlainYear) ∧
    ((∀ op ∈ ops, ∀ t, op.time? = some t → t.EndsMinute) →
      ∀ t, (a.run ops).HasInstant t → t.EndsMinute) ∧
    ((∃ b, ofText (a.run ops).text = .ok b) →
      (∀ t, (a.run ops).HasInstant t → t.HasPlainYear) ∧
        (a.run ops).ShownInOrder) ∧
    ((∀ op ∈ ops, op.IsAnchored) →
      (∀ t, (a.run ops).HasInstant t → t.HasPlainYear) →
      ((a.run ops).ShownInOrder ∨
        ∀ t, (a.run ops).HasInstant t → t.EndsMinute) →
      ∃ b, ofText (a.run ops).text = .ok b) := by
  have hwf := h.wellFormed
  have hn := h.isNumbered
  refine ⟨?_, ?_, ?_, ?_, ?_⟩
  · intro t _
    exact Instant.readRfc3339_eq_self_iff
  · intro hstart hops
    rw [← everyInstant_iff] at hstart ⊢
    exact everyInstant_run hwf hn hstart hops
      fun t ht => Instant.hasPlainYear_shown.2 ht
  · intro hops
    rw [← everyInstant_iff]
    exact everyInstant_run hwf hn h.endsMinute hops
      fun t _ => t.endsMinute_shown
  · rintro ⟨b, hb⟩
    have hreach := reachable_run h ops
    obtain ⟨hyears, horder, -⟩ :=
      shown_of_ofText_text hb hreach.wellFormed hreach.isNumbered
    exact ⟨everyInstant_iff.1 hyears, horder⟩
  · intro hops hyears hor
    have hreach : Reachable Operation.IsAnchored (a.run ops) :=
      ⟨a, ops, h, hops, rfl⟩
    have horder : (a.run ops).ShownInOrder := hor.elim id fun hminutes =>
      shownInOrder_of_endsMinute hreach (everyInstant_iff.2 hminutes)
    have hdated := isDated_of_shownInOrder hreach.wellFormed
      (everyInstant_iff.2 hyears) horder
    exact ⟨_, ofText_text_of_isDated hreach.isSound hdated⟩

/-- An archive with a value of the leap second at the end of the year 9999 opens
again. -/
theorem reopens_at_end_of_plain_years :
    let last := (Instant.ofUnix? 253402300799 1500000000).getD (.ofSecond 0)
    let a := fresh.run [.storeValue "default" "/app/key" (.bool true) last .keep]
    a.HasInstant last ∧
      (∀ t, a.HasInstant t → Instant.readRfc3339 t.rfc3339Chars = .ok t) ∧
      ∃ b, ofText a.text = .ok b := by
  intro last a
  have htimes : (a.locations.map fun l =>
      (l.tree.recorded ["app", "key"]).map Prod.fst) = [[last]] := by
    decide +kernel
  obtain ⟨l, hl, hlast⟩ := List.mem_map.1 (htimes ▸ List.mem_cons_self)
  have hstart : ∀ t, fresh.HasInstant t → t.HasPlainYear := by
    rintro t ⟨l, hl, path, e, he, -⟩
    obtain rfl := List.mem_singleton.1 hl
    simp [Directory.empty] at he
  have hop : ∀ op ∈ [Operation.storeValue "default" "/app/key" (.bool true) last
      .keep], op.IsAnchored ∧ ∀ t, op.time? = some t → t.ReadsBack := by
    rw [List.forall_mem_singleton]
    refine ⟨trivial, fun t ht => ?_⟩
    obtain rfl := Option.some.inj ht
    decide +kernel
  obtain ⟨hiff, hyears, hminutes, -, hopens⟩ := reopens_of_run .fresh
    [.storeValue "default" "/app/key" (.bool true) last .keep]
  have hyears := hyears hstart fun op ho t ht => ((hop op ho).2 t ht).1
  have hminutes := hminutes fun op ho t ht => ((hop op ho).2 t ht).2
  refine ⟨hasInstant_of_mem_recorded hl (hlast ▸ List.mem_cons_self), ?_, ?_⟩
  · intro t ht
    exact (hiff t ht).2 ⟨hyears t ht, hminutes t ht⟩
  · exact hopens (fun op ho => (hop op ho).1) hyears (Or.inr hminutes)

/-- A second later the value is stored, but its instant does not read back and
the archive does not open again.  Nor does it behind two values a fifth of a
second apart, the first of them stored at a leap second that ends no minute, and
the instant of that one reads as another one. -/
theorem not_reopens_behind_plain_years :
    let next := Instant.ofSecond 253402300800
    let a := fresh.run [.storeValue "default" "/app/key" (.bool true) next .keep]
    let leap : Instant := ⟨4, 1900000000, by decide⟩
    let later : Instant := ⟨5, 100000000, by decide⟩
    let b := fresh.run [
      .storeValue "default" "/app/key" (.bool true) leap .keep,
      .storeValue "default" "/app/key" (.bool false) later .keep]
    (a.HasInstant next ∧
      Instant.readRfc3339 next.rfc3339Chars = .error .invalid ∧
      ¬ ∃ c, ofText a.text = .ok c) ∧
    b.HasInstant leap ∧ b.HasInstant later ∧
      (∃ t, Instant.readRfc3339 leap.rfc3339Chars = .ok t ∧ later < t) ∧
      ¬ ∃ c, ofText b.text = .ok c := by
  intro next a leap later b
  have hnext : [next] ∈ a.locations.map fun l =>
      (l.tree.recorded ["app", "key"]).map Prod.fst := by decide +kernel
  have hboth : [leap, later] ∈ b.locations.map fun l =>
      (l.tree.recorded ["app", "key"]).map Prod.fst := by decide +kernel
  have hthere : ∀ {a : Archive} {times : List Instant},
      (times ∈ a.locations.map fun l =>
        (l.tree.recorded ["app", "key"]).map Prod.fst) →
        ∀ t ∈ times, a.HasInstant t := by
    intro a times htimes t ht
    obtain ⟨l, hl, rfl⟩ := List.mem_map.1 htimes
    exact hasInstant_of_mem_recorded hl ht
  have hyear : ¬ next.HasPlainYear := by decide +kernel
  have hread := leap.readRfc3339_rfc3339Chars (by decide +kernel)
  refine ⟨⟨hthere hnext next (by simp), next.readRfc3339_of_signed hyear, ?_⟩,
    hthere hboth leap (by simp), hthere hboth later (by simp),
    ⟨_, hread, by decide +kernel⟩, ?_⟩
  · rintro ⟨c, hc⟩
    have hyears := (recorded_of_ofText_text hc (reachable_run .fresh _) hnext).1
    exact hyear (hyears next (by simp))
  · rintro ⟨c, hc⟩
    have horder := (recorded_of_ofText_text hc (reachable_run .fresh _) hboth).2
    exact absurd horder (by decide +kernel)

end Archive

end SettingsArchive
