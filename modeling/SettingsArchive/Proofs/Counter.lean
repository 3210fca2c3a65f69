import SettingsArchive.Proofs.Database
import SettingsArchive.Proofs.Links
import SettingsArchive.Proofs.Loading.Refusals

/-!
# The number of the next write

A number is of sixty-four bits, the number of a write is above all those before
it, and the largest one is never used up.  A document may bring numbers of its
own, and with them an archive comes near the end.

`counter_of_ofText` says how near.  Reading a text ends with an archive or with
a refusal, but where a revision has the largest number there is no next one and
reading breaks off.  An archive that was read can store a value under every
path of every location, unless the number of its next write is the largest one,
which the document stated or a revision has the number before it.
-/

namespace SettingsArchive.Archive

open Contents (HasRevision Stated lastRevision hasRevision_lastRevision
  le_lastRevision)

variable {a : Archive}

/-- An archive with a number left can store some value at a path that has a
backend.  An archive without one cannot. -/
theorem exists_storeValue (h : a.WellFormed) {l : Location}
    (hl : l ∈ a.locations) {t backend : String}
    (hb : Path.backendOf t = .ok backend) :
    ∃ value time, ∀ mask,
      (a.nextRevision < Numeral.maxWord →
        ∃ b, a.storeValue l.id t value time mask = .ok (a.nextRevision, b) ∧
          b.nextRevision = a.nextRevision + 1) ∧
      (¬ a.nextRevision < Numeral.maxWord →
        a.storeValue l.id t value time mask = .error .counterExhausted) := by
  obtain ⟨name, rest, hpath⟩ := Path.backendOf_eq_ok_iff.1 hb
  obtain ⟨value, time, hfits⟩ :=
    l.tree.exists_fits (backend :: name :: rest)
  refine ⟨value, time, fun mask => ?_⟩
  rw [storeValue_eq hb (findLocation?_of_mem h.ids hl) hpath hfits]
  constructor
  · intro hlt
    exact ⟨_, if_pos hlt, rfl⟩
  · intro hnot
    exact if_neg hnot

/-- Reading a text fails with a refusal, or because a revision has the largest
number. -/
theorem error_of_ofText {text : String} {e : ArchiveError}
    (h : ofText text = .error e) :
    e.IsRefusal ∨
      e = .counterExhausted ∧ ∃ root, Xml.Element.read text = .ok root ∧
        HasRevision root Numeral.maxWord := by
  unfold ofText at h
  cases hread : Xml.Element.read text with
  | error fault =>
    rw [hread] at h
    injection h with h
    subst h
    exact Or.inl trivial
  | ok root =>
    rw [hread] at h
    cases hc : Contents.ofElement root with
    | error e' =>
      have h : (ofContents <$> Contents.ofElement root) = .error e := h
      rw [hc] at h
      injection h with h
      subst h
      rcases Contents.error_of_ofElement hc with href | ⟨rfl, hhas⟩
      · exact Or.inl href
      · exact Or.inr ⟨rfl, root, rfl, hhas⟩
    | ok c =>
      have h : (ofContents <$> Contents.ofElement root) = .error e := h
      rw [hc] at h
      cases h

/-- The number of the next write is the largest one if the document states
that, or if a revision has the number before. -/
theorem nextRevision_eq_maxWord_iff {root : Xml.Element} {c : Contents}
    (h : c.ReadFrom root) :
    c.nextRevision = Numeral.maxWord ↔
      Stated root Numeral.maxWord ∨ HasRevision root (Numeral.maxWord - 1) := by
  obtain ⟨hlast, stated, hstated, hn⟩ := Contents.of_readNextRevision h.number
  have hle := h.lastRevision_le
  have hstatedLe := hstated.le
  constructor
  · intro hmax
    by_cases hs : stated = Numeral.maxWord
    · exact Or.inl (hs ▸ hstated)
    · have hbefore : lastRevision c.locations = Numeral.maxWord - 1 := by omega
      have hpos : 0 < lastRevision c.locations := by
        rw [hbefore]
        decide
      exact Or.inr (hbefore ▸ hasRevision_lastRevision h.locations hpos)
  · rintro (hmax | hmax)
    · have hs : stated = Numeral.maxWord := hstated.unique hmax
      omega
    · have hbefore := le_lastRevision h.locations hmax
      omega

/-- Reading a text ends with an archive or with a refusal, unless a revision has
the largest number.  An archive that was read can store a value at every path of
every location, unless its next number is the largest one. -/
theorem counter_of_ofText (text : String) :
    (∀ e, ofText text = .error e → e.IsRefusal ∨
      e = .counterExhausted ∧ ∃ root, Xml.Element.read text = .ok root ∧
        HasRevision root Numeral.maxWord) ∧
    ∀ a, ofText text = .ok a →
      a.nextRevision ≤ Numeral.maxWord ∧
      (a.nextRevision = Numeral.maxWord ↔
        ∃ root, Xml.Element.read text = .ok root ∧
          (Stated root Numeral.maxWord ∨
            HasRevision root (Numeral.maxWord - 1))) ∧
      ∀ l ∈ a.locations, ∀ path backend, Path.backendOf path = .ok backend →
        ∃ value time, ∀ mask,
          (a.nextRevision < Numeral.maxWord →
            ∃ b, a.storeValue l.id path value time mask =
                .ok (a.nextRevision, b) ∧
              b.nextRevision = a.nextRevision + 1) ∧
          (¬ a.nextRevision < Numeral.maxWord →
            a.storeValue l.id path value time mask =
              .error .counterExhausted) := by
  constructor
  · intro e he
    exact error_of_ofText he
  · intro a ha
    have hstart : IsStart a := .read ha
    obtain ⟨root, c, hroot, hc, rfl⟩ := of_ofText ha
    refine ⟨hc.isSound.bound, ?_, ?_⟩
    · show c.nextRevision = Numeral.maxWord ↔ _
      rw [nextRevision_eq_maxWord_iff hc]
      constructor
      · intro hmax
        exact ⟨root, hroot, hmax⟩
      · rintro ⟨root', hroot', hmax⟩
        obtain rfl := Except.ok.inj (hroot.symm.trans hroot')
        exact hmax
    · intro l hl path backend hb
      exact exists_storeValue hstart.wellFormed hl hb

/-! ## The end of the numbers -/

/-- Contents with one setting, whose revision has this number. -/
def numbered (n : Nat) : Contents :=
  let revision : Revision := ⟨n, .ofSecond 0, .bool true, .keep, false⟩
  let tree := Directory.empty.write ["app", "key"] revision
  { fresh.contents with locations := [{ id := defaultId, tree }] }

/-- A revision with the number before the largest one leaves an archive that
has no number for a write. -/
theorem counter_of_number_before_largest :
    let text := (numbered (Numeral.maxWord - 1)).toElement.document
    (ofText text).toOption.map nextRevision = some Numeral.maxWord ∧
      ∀ a, ofText text = .ok a → ∀ l ∈ a.locations, ∀ path backend,
        Path.backendOf path = .ok backend → ∃ value time, ∀ mask,
          (a.nextRevision < Numeral.maxWord →
            ∃ b, a.storeValue l.id path value time mask =
                .ok (a.nextRevision, b) ∧
              b.nextRevision = a.nextRevision + 1) ∧
          (¬ a.nextRevision < Numeral.maxWord →
            a.storeValue l.id path value time mask =
              .error .counterExhausted) := by
  intro text
  refine ⟨?_, fun a ha => ((counter_of_ofText text).2 a ha).2.2⟩
  rw [ofText_document (Contents.isPlain_toElement _)]
  decide +kernel

/-- A document with the largest number is neither read nor refused. -/
theorem ofText_of_largest_number :
    let text := (numbered Numeral.maxWord).toElement.document
    ¬ ((∃ a, ofText text = .ok a) ∨
      ∃ e, ofText text = .error e ∧ e.IsRefusal) := by
  intro text
  have hend : (match Contents.ofElement (numbered Numeral.maxWord).toElement with
      | .error .counterExhausted => true
      | _ => false) = true := by decide +kernel
  split at hend
  · rename_i hread
    have htext : ofText text = .error .counterExhausted := by
      rw [ofText_document (Contents.isPlain_toElement _), hread]
      rfl
    rw [htext]
    rintro (⟨a, ⟨⟩⟩ | ⟨e, ⟨⟩, ⟨⟩⟩)
  · cases hend

end SettingsArchive.Archive
