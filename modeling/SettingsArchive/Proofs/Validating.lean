import SettingsArchive.Proofs.Forest
import SettingsArchive.Proofs.Loop

/-!
# Validating links

The links of a list of locations that is read may lead anywhere.  They are validated by
a loop for each location, which follows the links upwards and remembers the ids that it
has passed (`Climb.round`).  It has no count of its rounds.  It ends because an id that
it has not passed is one of the ids of the list, so there is always one fewer left.

* `WayUp` says what the links come to that lead up from a location: an end without a
  parent, an id that is not there, or a circle.  A circle need not go through the
  location that the way begins at.
* `Climb.IsOnWay` is what a round of the loop keeps (`Climb.keeps_round`), and the
  answer of the loop is what the way comes to (`Climb.exists_answer`).
* No location has more than one way up, so the answer says no more and no less than that
  (`checkChain_eq_iff`).
* `validated_of_distinct` is the result for the whole list.

`checkChain` crosses locations off a list and the loop keeps a list of ids.  They come
to the same, round by round (`Climb.agrees_round`).
-/

namespace SettingsArchive

open Relation (ReflTransGen TransGen)

variable {locations : List Location} {start : String}

/-! ## Ways up -/

/-- What the links come to that lead up from a location. -/
inductive WayUp (locations : List Location) (start : String) :
    Except Corruption Unit → Prop where
  | root {id : String}
      (up : ReflTransGen (HasParent (links locations)) start id)
      (root : (id, none) ∈ links locations) :
      WayUp locations start (.ok ())
  | missing {id parent : String}
      (up : ReflTransGen (HasParent (links locations)) start id)
      (link : HasParent (links locations) id parent)
      (missing : ∀ l ∈ locations, l.id ≠ parent) :
      WayUp locations start (.error (.missingParent start parent))
  | circle {id : String}
      (up : ReflTransGen (HasParent (links locations)) start id)
      (circle : TransGen (HasParent (links locations)) id id) :
      WayUp locations start (.error (.parentCycle start))

section Unique

variable {ls : List Link} (hn : (ls.map Prod.fst).Nodup) {id other : String}

/-- No link leads on from an id. -/
def IsEnd (ls : List Link) (id : String) : Prop :=
  ∀ parent, ¬ HasParent ls id parent

include hn

theorem rightUnique_hasParent : Relator.RightUnique (HasParent ls) :=
  fun _ _ _ hp hq => Option.some.inj (Height.eq_of_mem hn hp hq)

theorem isEnd_of_root (h : (id, none) ∈ ls) : IsEnd ls id := by
  intro parent hp
  cases Height.eq_of_mem hn h hp

/-- A way up has one end. -/
theorem eq_of_isEnd (hid : ReflTransGen (HasParent ls) start id)
    (hother : ReflTransGen (HasParent ls) start other) (hend : IsEnd ls id)
    (hend' : IsEnd ls other) : id = other := by
  rcases ReflTransGen.total_of_right_unique (rightUnique_hasParent hn) hid hother with
    h | h
  · rcases h.cases_head with heq | ⟨parent, hp, -⟩
    · exact heq
    · exact absurd hp (hend parent)
  · rcases h.cases_head with heq | ⟨parent, hp, -⟩
    · exact heq.symm
    · exact absurd hp (hend' parent)

/-- The links of a circle lead round the circle. -/
theorem transGen_of_circle (hcircle : TransGen (HasParent ls) id id)
    (h : ReflTransGen (HasParent ls) id other) :
    TransGen (HasParent ls) other other := by
  induction h with
  | refl => exact hcircle
  | @tail m parent _ hp ih =>
    obtain ⟨next, hnext, hback⟩ := TransGen.head'_iff.1 ih
    obtain rfl := rightUnique_hasParent hn hp hnext
    exact TransGen.tail' hback hp

/-- A way up that runs into a circle has no end. -/
theorem not_isEnd_of_circle (hid : ReflTransGen (HasParent ls) start id)
    (hcircle : TransGen (HasParent ls) id id)
    (hother : ReflTransGen (HasParent ls) start other) : ¬ IsEnd ls other := by
  intro hend
  rcases ReflTransGen.total_of_right_unique (rightUnique_hasParent hn) hid hother with
    h | h
  · obtain ⟨parent, hp, -⟩ := TransGen.head'_iff.1 (transGen_of_circle hn hcircle h)
    exact hend parent hp
  · rcases h.cases_head with rfl | ⟨parent, hp, -⟩
    · obtain ⟨parent, hp, -⟩ := TransGen.head'_iff.1 hcircle
      exact hend parent hp
    · exact hend parent hp

end Unique

namespace WayUp

theorem isEnd_of_missing {parent : String}
    (missing : ∀ l ∈ locations, l.id ≠ parent) : IsEnd (links locations) parent := by
  intro next hnext
  obtain ⟨l, hl, hid, -⟩ := mem_links_iff.1 hnext
  exact missing l hl hid

/-- Where no id repeats, a way up comes to one thing. -/
theorem unique (hn : (locations.map Location.id).Nodup)
    {outcome outcome' : Except Corruption Unit} (h : WayUp locations start outcome)
    (h' : WayUp locations start outcome') : outcome = outcome' := by
  have hn' := nodup_links hn
  -- An end without a parent is in the list, and a missing parent is not.
  have hnot {id middle parent : String}
      (up : ReflTransGen (HasParent (links locations)) start id)
      (root : (id, none) ∈ links locations)
      (up' : ReflTransGen (HasParent (links locations)) start middle)
      (link : HasParent (links locations) middle parent)
      (missing : ∀ l ∈ locations, l.id ≠ parent) : False := by
    obtain rfl := eq_of_isEnd hn' up (up'.tail link) (isEnd_of_root hn' root)
      (isEnd_of_missing missing)
    obtain ⟨l, hl, hid, -⟩ := mem_links_iff.1 root
    exact missing l hl hid
  cases h with
  | root up root =>
    cases h' with
    | root => rfl
    | missing up' link missing => exact (hnot up root up' link missing).elim
    | circle up' circle =>
      exact absurd (isEnd_of_root hn' root) (not_isEnd_of_circle hn' up' circle up)
  | missing up link missing =>
    cases h' with
    | root up' root => exact (hnot up' root up link missing).elim
    | missing up' link' missing' =>
      rw [eq_of_isEnd hn' (up.tail link) (up'.tail link') (isEnd_of_missing missing)
        (isEnd_of_missing missing')]
    | circle up' circle =>
      exact absurd (isEnd_of_missing missing)
        (not_isEnd_of_circle hn' up' circle (up.tail link))
  | circle up circle =>
    cases h' with
    | root up' root =>
      exact absurd (isEnd_of_root hn' root) (not_isEnd_of_circle hn' up circle up')
    | missing up' link missing =>
      exact absurd (isEnd_of_missing missing)
        (not_isEnd_of_circle hn' up circle (up'.tail link))
    | circle => rfl

end WayUp

/-! ## Climbing -/

/-- Where the loop is on the way up: the ids that it has passed, and the next link. -/
structure Climb where
  passed : List String
  next : Option String

namespace Climb

/-- Where the loop begins. -/
def ofLocation (l : Location) : Climb :=
  ⟨[l.id], l.parent⟩

/-- Follows one link. -/
def round (locations : List Location) (start : String) (c : Climb) :
    Round Climb (Except Corruption Unit) :=
  match c.next with
  | none => .done (.ok ())
  | some id =>
    match findLocation? locations id with
    | none => .done (.error (.missingParent start id))
    | some p =>
      if id ∈ c.passed then .done (.error (.parentCycle start))
      else .next ⟨c.passed ++ [id], p.parent⟩

/-- The locations that are not yet passed. -/
def unseen (locations : List Location) (c : Climb) : List Location :=
  locations.filter (·.id ∉ c.passed)

/-- What is to be answered from here on. -/
def outcome (locations : List Location) (start : String) (c : Climb) :
    Except Corruption Unit :=
  checkChain locations start (c.unseen locations) c.next

/-- The next link is that of a location on the way up, and all that was passed is on
the way to this location. -/
def IsOnWay (locations : List Location) (start : String) (c : Climb) : Prop :=
  ∃ id, (id, c.next) ∈ links locations ∧
    ReflTransGen (HasParent (links locations)) start id ∧
    ∀ before ∈ c.passed, ReflTransGen (HasParent (links locations)) before id

variable {c : Climb}

theorem exists_unseen_iff {p : Location} (hp : p ∈ locations) :
    (∃ l ∈ c.unseen locations, l.id = p.id) ↔ p.id ∉ c.passed := by
  constructor
  · rintro ⟨l, hl, hid⟩
    have := (List.mem_filter.1 hl).2
    rw [hid] at this
    exact of_decide_eq_true this
  · intro h
    exact ⟨p, List.mem_filter.2 ⟨hp, decide_eq_true h⟩, rfl⟩

theorem unseen_concat (id : String) (next : Option String) :
    unseen locations ⟨c.passed ++ [id], next⟩ = without (c.unseen locations) id := by
  unfold unseen without
  rw [List.filter_filter]
  refine List.filter_congr fun l _ => ?_
  simp [not_or, and_comm]

/-- What one round does. -/
theorem round_cases (locations : List Location) (start : String) (c : Climb) :
    (c.next = none ∧ c.round locations start = .done (.ok ())) ∨
    (∃ id, c.next = some id ∧ findLocation? locations id = none ∧
      c.round locations start = .done (.error (.missingParent start id))) ∨
    ∃ p, c.next = some p.id ∧ findLocation? locations p.id = some p ∧
      (p.id ∈ c.passed ∧
          c.round locations start = .done (.error (.parentCycle start)) ∨
        p.id ∉ c.passed ∧
          c.round locations start = .next ⟨c.passed ++ [p.id], p.parent⟩) := by
  cases hnext : c.next with
  | none =>
    left
    simp [round, hnext]
  | some id =>
    right
    cases hfind : findLocation? locations id with
    | none =>
      left
      exact ⟨id, rfl, hfind, by simp [round, hnext, hfind]⟩
    | some p =>
      right
      obtain ⟨-, rfl⟩ := mem_of_findLocation? hfind
      refine ⟨p, rfl, hfind, ?_⟩
      by_cases hid : p.id ∈ c.passed
      · exact Or.inl ⟨hid, by simp [round, hnext, hfind, hid]⟩
      · exact Or.inr ⟨hid, by simp [round, hnext, hfind, hid]⟩

/-- A round stays on the way up, and it ends the loop with what the way comes to. -/
theorem keeps_round (hc : c.IsOnWay locations start) :
    (c.round locations start).Meets (WayUp locations start)
      (IsOnWay locations start) := by
  obtain ⟨here, hlink, hup, hpassed⟩ := hc
  rcases round_cases locations start c with
    ⟨hnext, hround⟩ | ⟨id, hnext, hfind, hround⟩ | ⟨p, hnext, hfind, hcases⟩
  · rw [hnext] at hlink
    rw [hround]
    exact .root hup hlink
  · have hmissing : ∀ l ∈ locations, l.id ≠ id := by
      simpa [findLocation?] using hfind
    rw [hnext] at hlink
    rw [hround]
    exact .missing hup hlink hmissing
  · have hp := (mem_of_findLocation? hfind).1
    rw [hnext] at hlink
    rcases hcases with ⟨hid, hround⟩ | ⟨hid, hround⟩
    · -- The way from the id to itself closes with the link.
      rw [hround]
      exact .circle hup (TransGen.head' hlink (hpassed _ hid))
    · rw [hround]
      refine ⟨p.id, mem_links_of_mem hp, hup.tail hlink, fun before hbefore => ?_⟩
      rcases List.mem_append.1 hbefore with hbefore | hbefore
      · exact (hpassed before hbefore).tail hlink
      · rw [List.mem_singleton.1 hbefore]

/-- A round that ends the loop answers what `checkChain` does.  Any other round leaves
the answer as it is, and one location fewer to be passed. -/
theorem agrees_round (locations : List Location) (start : String) (c : Climb) :
    (c.round locations start).Meets (fun answer => answer = c.outcome locations start)
      fun d => d.outcome locations start = c.outcome locations start ∧
        (d.unseen locations).length < (c.unseen locations).length := by
  rcases round_cases locations start c with
    ⟨hnext, hround⟩ | ⟨id, hnext, hfind, hround⟩ | ⟨p, hnext, hfind, hcases⟩
  · have hanswer : c.outcome locations start = .ok () := by
      rw [outcome, hnext, checkChain]
    rw [hround]
    exact hanswer.symm
  · have hanswer : c.outcome locations start = .error (.missingParent start id) := by
      rw [outcome, hnext, checkChain, hfind]
    rw [hround]
    exact hanswer.symm
  · have hp := (mem_of_findLocation? hfind).1
    rcases hcases with ⟨hid, hround⟩ | ⟨hid, hround⟩
    · have hseen : ¬ ∃ l ∈ c.unseen locations, l.id = p.id :=
        fun h => (exists_unseen_iff hp).1 h hid
      have hanswer : c.outcome locations start = .error (.parentCycle start) := by
        rw [outcome, hnext, checkChain, hfind]
        exact dif_neg hseen
      rw [hround]
      exact hanswer.symm
    · have hseen : ∃ l ∈ c.unseen locations, l.id = p.id :=
        (exists_unseen_iff hp).2 hid
      have hanswer : c.outcome locations start =
          outcome locations start ⟨c.passed ++ [p.id], p.parent⟩ := by
        rw [outcome, hnext, checkChain, hfind, outcome, unseen_concat]
        exact dif_pos hseen
      rw [hround]
      refine ⟨hanswer.symm, ?_⟩
      rw [unseen_concat]
      exact length_without_lt hseen

theorem isOnWay_ofLocation {l : Location} (hl : l ∈ locations) :
    (ofLocation l).IsOnWay locations l.id := by
  refine ⟨l.id, mem_links_of_mem hl, .refl, fun before hbefore => ?_⟩
  rw [List.mem_singleton.1 hbefore]

theorem unseen_ofLocation (l : Location) :
    (ofLocation l).unseen locations = without locations l.id := by
  refine List.filter_congr fun m _ => ?_
  simp [ofLocation]

/-- The loop ends within as many rounds as there are locations.  It answers what
`checkChain` does, and that is what the way up comes to. -/
theorem exists_answer {l : Location} (hl : l ∈ locations) :
    WayUp locations l.id
        (checkChain locations l.id (without locations l.id) l.parent) ∧
      ∀ rounds, locations.length ≤ rounds →
        Round.answer? (round locations l.id) rounds (ofLocation l) =
          some (checkChain locations l.id (without locations l.id) l.parent) := by
  have hround (c : Climb)
      (hc : c.IsOnWay locations l.id ∧ c.outcome locations l.id =
        (ofLocation l).outcome locations l.id) :
      (c.round locations l.id).Meets
        (fun outcome => WayUp locations l.id outcome ∧
          outcome = (ofLocation l).outcome locations l.id)
        fun d => (d.IsOnWay locations l.id ∧ d.outcome locations l.id =
            (ofLocation l).outcome locations l.id) ∧
          (d.unseen locations).length < (c.unseen locations).length := by
    have hmeets := (keeps_round hc.1).and (agrees_round locations l.id c)
    rw [hc.2] at hmeets
    simpa only [and_assoc] using hmeets
  obtain ⟨answer, ⟨hway, rfl⟩, hends⟩ :=
    Round.exists_answer hround ⟨isOnWay_ofLocation hl, rfl⟩
  have hlt : (without locations l.id).length < locations.length :=
    length_without_lt ⟨l, hl, rfl⟩
  unfold outcome at hway hends
  rw [unseen_ofLocation] at hway hends
  exact ⟨hway, fun rounds hle => hends rounds (Nat.lt_of_lt_of_le hlt hle)⟩

end Climb

/-- What is found on the way up from a location is what the way comes to. -/
theorem checkChain_eq_iff (hn : (locations.map Location.id).Nodup) {l : Location}
    (hl : l ∈ locations) {outcome : Except Corruption Unit} :
    checkChain locations l.id (without locations l.id) l.parent = outcome ↔
      WayUp locations l.id outcome := by
  have hway := (Climb.exists_answer hl).1
  constructor
  · rintro rfl
    exact hway
  · exact hway.unique hn

/-! ## All locations -/

/-- Follows the links up from some locations, one after the other, with so many rounds
for each.  The first fault ends it. -/
def validateEach (locations : List Location) (rounds : Nat) :
    List Location → Option (Except ArchiveError Unit)
  | [] => some (.ok ())
  | l :: ls =>
    match Round.answer? (Climb.round locations l.id) rounds (.ofLocation l) with
    | none => none
    | some (.error fault) => some (.error (.corrupt fault))
    | some (.ok ()) => validateEach locations rounds ls

/-- Validates the links of a list that is read, with so many rounds for each
location. -/
def validateLinks (locations : List Location) (rounds : Nat) :
    Option (Except ArchiveError Unit) :=
  match findLocation? locations defaultId with
  | none => some (.error (.corrupt .noDefault))
  | some d =>
    if d.parent.isSome then some (.error (.corrupt .defaultHasParent))
    else validateEach locations rounds locations

theorem validateEach_eq {rounds : Nat} (hrounds : locations.length ≤ rounds)
    {ls : List Location} (hls : ∀ l ∈ ls, l ∈ locations) :
    validateEach locations rounds ls = some ((ls.forM fun l =>
      checkChain locations l.id (without locations l.id) l.parent).mapError
        ArchiveError.corrupt) := by
  induction ls with
  | nil => rfl
  | cons l ls ih =>
    obtain ⟨hl, hls⟩ := List.forall_mem_cons.1 hls
    rw [validateEach, (Climb.exists_answer hl).2 rounds hrounds, List.forM]
    cases checkChain locations l.id (without locations l.id) l.parent with
    | error fault => rfl
    | ok => exact ih hls

/-- Validation ends, and it refuses what `checkLinks` refuses. -/
theorem validateLinks_eq {rounds : Nat} (hrounds : locations.length ≤ rounds) :
    validateLinks locations rounds =
      some ((checkLinks locations).mapError ArchiveError.corrupt) := by
  unfold validateLinks checkLinks
  cases findLocation? locations defaultId with
  | none => rfl
  | some d =>
    simp only
    split
    · rfl
    · exact validateEach_eq hrounds fun _ hl => hl

/-- The links of locations that can be used: the default location has no parent, every
parent is there, and there is no circle. -/
structure HasSoundLinks (locations : List Location) : Prop where
  default : ∃ l ∈ locations, l.id = defaultId ∧ l.parent = none
  parents : ∀ l ∈ locations, ∀ parent, l.parent = some parent →
    ∃ p ∈ locations, p.id = parent
  circles : ∀ id, ¬ TransGen (HasParent (links locations)) id id

/-- What a fault says of locations. -/
inductive LinkFault (locations : List Location) : Corruption → Prop where
  | noDefault (absent : ∀ l ∈ locations, l.id ≠ defaultId) :
      LinkFault locations .noDefault
  | defaultHasParent {l : Location} (listed : l ∈ locations)
      (default : l.id = defaultId) (linked : l.parent.isSome) :
      LinkFault locations .defaultHasParent
  | wayUp {l : Location} {fault : Corruption} (listed : l ∈ locations)
      (way : WayUp locations l.id (.error fault)) : LinkFault locations fault

/-- In sound links every way up has an end without a parent. -/
theorem HasSoundLinks.eq_ok (h : HasSoundLinks locations)
    {outcome : Except Corruption Unit} (hway : WayUp locations start outcome) :
    outcome = .ok () := by
  cases hway with
  | root => rfl
  | missing _ link missing =>
    obtain ⟨l, hl, -, hparent⟩ := mem_links_iff.1 link
    obtain ⟨p, hp, hid⟩ := h.parents l hl _ hparent
    exact absurd hid (missing p hp)
  | circle _ circle => exact absurd circle (h.circles _)

theorem checkLinks_eq_ok_iff (hn : (locations.map Location.id).Nodup) :
    checkLinks locations = .ok () ↔ HasSoundLinks locations := by
  have hn' := nodup_links hn
  constructor
  · intro h
    obtain ⟨hdefault, hheights⟩ := of_checkLinks h
    refine ⟨?_, ?_, ?_⟩
    · obtain ⟨l, hl, hid, hparent⟩ := mem_links_iff.1 hdefault
      exact ⟨l, hl, hid, hparent⟩
    · intro l hl parent hparent
      have hlink : HasParent (links locations) l.id parent :=
        mem_links_iff.2 ⟨l, hl, rfl, hparent⟩
      obtain ⟨n, hheight⟩ := hheights _ hlink
      obtain ⟨m, -, hm⟩ := hheight.of_hasParent hn' hlink
      obtain ⟨_, hmem⟩ := hm.mem
      obtain ⟨p, hp, hid, -⟩ := mem_links_iff.1 hmem
      exact ⟨p, hp, hid⟩
    · intro id hcircle
      obtain ⟨parent, hlink, -⟩ := TransGen.head'_iff.1 hcircle
      obtain ⟨n, hheight⟩ := hheights _ hlink
      exact hheight.not_transGen hn' hcircle
  · intro h
    obtain ⟨d, hd, hid, hparent⟩ := h.default
    have hfind : findLocation? locations defaultId = some d :=
      hid ▸ findLocation?_of_mem hn hd
    rw [checkLinks, hfind]
    simp only [hparent, Option.isSome_none, Bool.false_eq_true, if_false]
    exact forM_of_forall fun l hl => h.eq_ok (Climb.exists_answer hl).1

/-- A fault that is reported is there. -/
theorem linkFault_of_checkLinks {fault : Corruption}
    (h : checkLinks locations = .error fault) : LinkFault locations fault := by
  unfold checkLinks at h
  split at h
  · rename_i hfind
    obtain rfl := Except.error.inj h
    refine .noDefault fun l hl hid => ?_
    simp only [findLocation?, List.find?_eq_none, beq_iff_eq] at hfind
    exact hfind l hl hid
  · rename_i d hfind
    obtain ⟨hd, hid⟩ := mem_of_findLocation? hfind
    split at h
    · rename_i hparent
      obtain rfl := Except.error.inj h
      exact .defaultHasParent hd hid hparent
    · obtain ⟨l, hl, hfault⟩ := exists_of_forM_eq_error h
      exact .wayUp hl (hfault ▸ (Climb.exists_answer hl).1)

/-- Locations of different ids are validated within as many rounds for each as there are
locations, whatever their links are.  They are accepted exactly if their links are
sound, and are refused as corrupt otherwise, for a fault that is there.  What is found
on the way up from a location is what the way comes to, so a circle is found from the
locations outside of it that lead into it as well. -/
theorem validated_of_distinct (hn : (locations.map Location.id).Nodup) :
    (∀ rounds, locations.length ≤ rounds → validateLinks locations rounds =
      some ((checkLinks locations).mapError ArchiveError.corrupt)) ∧
    (checkLinks locations = .ok () ↔ HasSoundLinks locations) ∧
    (¬ HasSoundLinks locations →
      ∃ fault, checkLinks locations = .error fault ∧ LinkFault locations fault) ∧
    ∀ l ∈ locations, ∀ outcome,
      checkChain locations l.id (without locations l.id) l.parent = outcome ↔
        WayUp locations l.id outcome := by
  have hsound := checkLinks_eq_ok_iff hn
  refine ⟨fun rounds hrounds => validateLinks_eq hrounds, hsound, ?_,
    fun l hl outcome => checkChain_eq_iff hn hl⟩
  intro hbad
  cases hlinks : checkLinks locations with
  | ok => exact absurd (hsound.1 hlinks) hbad
  | error fault => exact ⟨fault, rfl, linkFault_of_checkLinks hlinks⟩

/-- A location below two that are the parents of each other. -/
theorem validated_of_way_into_circle :
    let locations : List Location := [{ id := "default" },
      { id := "desk", parent := some "team" },
      { id := "team", parent := some "hall" },
      { id := "hall", parent := some "team" }]
    (locations.map Location.id).Nodup ∧
      validateLinks locations 4 = some (.error (.corrupt (.parentCycle "desk"))) ∧
      ¬ HasSoundLinks locations ∧
      WayUp locations "desk" (.error (.parentCycle "desk")) ∧
      ¬ TransGen (HasParent (links locations)) "desk" "desk" := by
  intro locations
  have hn : (locations.map Location.id).Nodup := by decide
  obtain ⟨hends, hsound, -, hways⟩ := validated_of_distinct hn
  have hvalidate : validateLinks locations 4 =
      some (.error (.corrupt (.parentCycle "desk"))) := rfl
  have hbad : ¬ HasSoundLinks locations := by
    intro h
    have hrefused := hends 4 (Nat.le_refl 4)
    rw [hsound.2 h, hvalidate] at hrefused
    cases hrefused
  have hfound : checkChain locations "desk" (without locations "desk")
      (some "team") = .error (.parentCycle "desk") := by
    simp [locations, checkChain, findLocation?, without]
  have hdesk : { id := "desk", parent := some "team" } ∈ locations :=
    List.mem_cons_of_mem _ List.mem_cons_self
  refine ⟨hn, hvalidate, hbad, (hways _ hdesk _).1 hfound, ?_⟩
  intro hcircle
  obtain ⟨child, -, hlink⟩ := TransGen.tail'_iff.1 hcircle
  have hlink : (child, some "desk") ∈ links locations := hlink
  simp [locations, links] at hlink

end SettingsArchive
