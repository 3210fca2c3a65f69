import SettingsArchive.Proofs.Forest

/-!
# Linking a location to a parent

A location may inherit from any location that is not below it.  There are two ways
to see whether links are sound.  `setParent` follows the links up from the new
parent before anything has changed, and `checkLinks` follows them up from every
location of a list that is read.

One link that is changed closes a circle only if the circle goes through it, and
then the rest of the circle was there before.  So both ways agree on the list with
the one link changed (`linked_of_reachable`).
-/

namespace SettingsArchive

open Relation (ReflTransGen TransGen)

/-- The locations with this parent, or none, for the one of this id. -/
def linkedTo (id : String) (parent : Option String)
    (locations : List Location) : List Location :=
  locations.map fun l => if l.id = id then { l with parent } else l

variable {locations : List Location} {id p : String}

theorem map_id_linkedTo (id : String) (parent : Option String)
    (locations : List Location) :
    (linkedTo id parent locations).map Location.id =
      locations.map Location.id := by
  rw [linkedTo, List.map_map]
  refine List.map_congr_left fun l _ => ?_
  by_cases h : l.id = id
  · simp [h]
  · simp [h]

theorem links_linkedTo (id : String) (parent : Option String)
    (locations : List Location) :
    links (linkedTo id parent locations) =
      (links locations).map fun x => if x.1 = id then (id, parent) else x := by
  rw [linkedTo, links, links, List.map_map, List.map_map]
  refine List.map_congr_left fun l _ => ?_
  by_cases h : l.id = id
  · simp [h]
  · simp [h]

/-! ## Ways up -/

/-- A way up to a location does not need the link of that location. -/
theorem reflTransGen_of_keep {ls ms : List Link}
    (hkeep : ∀ x ∈ ls, x.1 ≠ id → x ∈ ms)
    (h : ReflTransGen (HasParent ls) p id) : ReflTransGen (HasParent ms) p id := by
  induction h using ReflTransGen.head_induction_on with
  | refl => exact .refl
  | @head other parent hlink _ ih =>
    by_cases ho : other = id
    · rw [ho]
    · exact .head (hkeep _ hlink ho) ih

/-- A chain goes up. -/
theorem reflTransGen_of_mem_chainFrom {start : String} {steps : Nat}
    {l : Location} {chain : List Location} (hl : l ∈ locations)
    (h : chainFrom locations start steps l = .ok chain) :
    ∀ m ∈ chain, ReflTransGen (HasParent (links locations)) l.id m.id := by
  apply chainFrom_induction _ _ hl h
  · intro l _ _ m hm
    rw [List.mem_singleton.1 hm]
  · intro l hl q _ hparent above ih m hm
    have hlink : HasParent (links locations) l.id q.id :=
      mem_links_iff.2 ⟨l, hl, rfl, hparent⟩
    rcases List.mem_cons.1 hm with rfl | hm
    · exact .refl
    · exact .head hlink (ih m hm)

/-- Links are not accepted if one of them leads back to where it comes from. -/
theorem not_reflTransGen_of_checkLinks
    (hn : (locations.map Location.id).Nodup) {l : Location} (hl : l ∈ locations)
    (h : checkLinks (linkedTo l.id (some p) locations) = .ok ()) :
    ¬ ReflTransGen (HasParent (links locations)) p l.id := by
  intro hup
  obtain ⟨-, hheights⟩ := of_checkLinks h
  have hn' : ((links (linkedTo l.id (some p) locations)).map Prod.fst).Nodup := by
    rw [map_fst_links, map_id_linkedTo]
    exact hn
  have hlink : HasParent (links (linkedTo l.id (some p) locations)) l.id p := by
    rw [HasParent, links_linkedTo]
    exact List.mem_map.2 ⟨_, mem_links_of_mem hl, if_pos rfl⟩
  have hkeep : ∀ x ∈ links locations, x.1 ≠ l.id →
      x ∈ links (linkedTo l.id (some p) locations) := by
    intro x hx hne
    rw [links_linkedTo]
    exact List.mem_map.2 ⟨x, hx, if_neg hne⟩
  obtain ⟨n, hheight⟩ := hheights _ hlink
  exact hheight.not_transGen hn'
    (TransGen.head' hlink (reflTransGen_of_keep hkeep hup))

namespace Archive

variable {a b : Archive}

/-! ## Setting a parent -/

theorem put_linkedTo (ha : a.WellFormed) {l : Location} (hl : l ∈ a.locations)
    (parent : Option String) :
    a.put { l with parent } =
      { a with locations := linkedTo l.id parent a.locations } := by
  rw [put, linkedTo]
  have hmap : ∀ m ∈ a.locations,
      (if m.id = l.id then { l with parent } else m) =
        if m.id = l.id then { m with parent } else m := by
    intro m hm
    by_cases h : m.id = l.id
    · rw [List.inj_on_of_nodup_map ha.ids hm hl h]
    · rw [if_neg h, if_neg h]
  rw [List.map_congr_left hmap]

/-- A location that is there and is not the default one is linked where the new
parent is allowed. -/
theorem setParent_eq (ha : a.WellFormed) (proper : id ≠ defaultId)
    (there : a.hasLocation id) (parent : Option String) :
    a.setParent id parent = (parent.elim (.ok ()) (a.checkParent id)).map
      fun _ => { a with locations := linkedTo id parent a.locations }.changed := by
  obtain ⟨l, hfind⟩ := hasLocation_iff.1 there
  obtain ⟨hl, rfl⟩ := mem_of_findLocation? hfind
  rw [setParent, if_neg proper, location_eq_ok_iff.2 hfind,
    ← put_linkedTo ha hl parent]
  cases parent with
  | none => rfl
  | some p => rfl

/-- A parent that is there is refused if the location is among those that are
above it, the parent included. -/
theorem checkParent_eq {above : List Location} (there : a.hasLocation p)
    (h : a.ancestors p = .ok above) :
    a.checkParent id p =
      if above.any (·.id == id) then .error (.parentCycle id p) else .ok () := by
  unfold checkParent
  simp only [there, h, bind, Except.bind, throw, throwThe, MonadExceptOf.throw,
    pure, Except.pure]
  rfl

section Forest

variable (ha : a.WellFormed) (hf : a.IsForest)

include ha hf

/-- Following the links up from a parent that is there has one of two outcomes. -/
theorem checkParent_cases (there : a.hasLocation p) :
    a.checkParent id p = .ok () ∨
      a.checkParent id p = .error (.parentCycle id p) := by
  obtain ⟨l, hfind⟩ := hasLocation_iff.1 there
  obtain ⟨hl, rfl⟩ := mem_of_findLocation? hfind
  obtain ⟨above, hchain, -⟩ := hf.ancestors_eq_ok ha hl
  rw [checkParent_eq there hchain]
  split
  · exact Or.inr rfl
  · exact Or.inl rfl

/-- A parent that is not below the location is allowed. -/
theorem checkParent_eq_ok (there : a.hasLocation p)
    (h : ¬ ReflTransGen (HasParent (links a.locations)) p id) :
    a.checkParent id p = .ok () := by
  obtain ⟨l, hfind⟩ := hasLocation_iff.1 there
  obtain ⟨hl, rfl⟩ := mem_of_findLocation? hfind
  obtain ⟨above, hchain, -⟩ := hf.ancestors_eq_ok ha hl
  have hfrom : chainFrom a.locations l.id a.locations.length l =
      .ok (l :: above) := by
    have hchain := hchain
    unfold ancestors chain at hchain
    rwa [hfind] at hchain
  have hnot : ¬ (l :: above).any (·.id == id) := by
    intro hany
    obtain ⟨m, hm, hid⟩ := List.any_eq_true.1 hany
    exact h (beq_iff_eq.1 hid ▸ reflTransGen_of_mem_chainFrom hl hfrom m hm)
  rw [checkParent_eq there hchain, if_neg hnot]

/-- With a parent that is allowed the links are accepted. -/
theorem checkLinks_of_checkParent (proper : id ≠ defaultId)
    (there : a.hasLocation id) (h : a.checkParent id p = .ok ()) :
    checkLinks (linkedTo id (some p) a.locations) = .ok () := by
  obtain ⟨l, hfind⟩ := hasLocation_iff.1 there
  obtain ⟨hl, rfl⟩ := mem_of_findLocation? hfind
  have hallowed : ∀ q, some p = some q → a.checkParent l.id q = .ok () := by
    rintro _ ⟨⟩
    exact h
  obtain ⟨hdefault, -, hheights⟩ := hf.link proper hfind hallowed
  rw [put_linkedTo ha hl] at hdefault hheights
  refine checkLinks_eq_ok ?_ hdefault hheights
  rw [map_id_linkedTo]
  exact ha.ids

/-- The two ways to see whether links are sound agree: a parent is allowed where
the links with this parent are accepted, and both are so where the location is
neither the parent nor above it. -/
theorem checkParent_iff (proper : id ≠ defaultId) (there : a.hasLocation id)
    (parentThere : a.hasLocation p) :
    (a.checkParent id p = .ok () ↔
      checkLinks (linkedTo id (some p) a.locations) = .ok ()) ∧
    (checkLinks (linkedTo id (some p) a.locations) = .ok () ↔
      ¬ ReflTransGen (HasParent (links a.locations)) p id) := by
  have hlinks := checkLinks_of_checkParent ha hf proper there (p := p)
  have hup : checkLinks (linkedTo id (some p) a.locations) = .ok () →
      ¬ ReflTransGen (HasParent (links a.locations)) p id := by
    obtain ⟨l, hfind⟩ := hasLocation_iff.1 there
    obtain ⟨hl, rfl⟩ := mem_of_findLocation? hfind
    exact not_reflTransGen_of_checkLinks ha.ids hl
  have hback : ¬ ReflTransGen (HasParent (links a.locations)) p id →
      a.checkParent id p = .ok () :=
    checkParent_eq_ok ha hf parentThere
  exact ⟨⟨hlinks, fun h => hback (hup h)⟩, hup, fun h => hlinks (hback h)⟩

end Forest

/-- Why a location is not linked to a parent, and how that is reported. -/
inductive Unlinkable (a : Archive) (id : String) :
    Option String → ArchiveError → Prop where
  | default {parent : Option String} (fixed : id = defaultId) :
    Unlinkable a id parent (.defaultLocation .reparented)
  | missing {parent : Option String} (proper : id ≠ defaultId)
    (gone : ¬ a.hasLocation id) :
    Unlinkable a id parent (.locationNotFound id)
  | missingParent {p : String} (proper : id ≠ defaultId)
    (there : a.hasLocation id) (gone : ¬ a.hasLocation p) :
    Unlinkable a id (some p) (.parentNotFound p)
  | cycle {p : String} (proper : id ≠ defaultId) (there : a.hasLocation id)
    (parentThere : a.hasLocation p)
    (circle : id = p ∨ TransGen (HasParent (links a.locations)) p id) :
    Unlinkable a id (some p) (.parentCycle id p)

section Forest

variable (ha : a.WellFormed) (hf : a.IsForest)

include ha hf

/-- Where there is a reason against it, the link is refused for this reason. -/
theorem setParent_of_unlinkable {parent : Option String} {e : ArchiveError}
    (h : a.Unlinkable id parent e) : a.setParent id parent = .error e := by
  cases h with
  | default fixed =>
    rw [setParent, if_pos fixed]
    rfl
  | missing proper gone =>
    have hnone : findLocation? a.locations id = none := by
      rw [Option.eq_none_iff_forall_ne_some]
      exact fun l hl => gone (hasLocation_iff.2 ⟨l, hl⟩)
    rw [setParent, if_neg proper, location, hnone]
    rfl
  | missingParent proper there gone =>
    rw [setParent_eq ha proper there, Option.elim_some]
    simp only [checkParent, gone, Bool.not_false, if_true]
    rfl
  | @cycle p proper there parentThere circle =>
    have hup : ReflTransGen (HasParent (links a.locations)) p id :=
      Relation.reflTransGen_iff_eq_or_transGen.2 circle
    obtain ⟨hallowed, hsound⟩ := checkParent_iff ha hf proper there parentThere
    have hcheck : a.checkParent id p = .error (.parentCycle id p) :=
      (checkParent_cases ha hf parentThere).resolve_left
        fun hok => hsound.1 (hallowed.1 hok) hup
    rw [setParent_eq ha proper there, Option.elim_some, hcheck]
    rfl

/-- Where there is no reason against it, the link is set. -/
theorem setParent_eq_ok {parent : Option String}
    (h : ∀ e, ¬ a.Unlinkable id parent e) :
    a.setParent id parent =
      .ok { a with locations := linkedTo id parent a.locations }.changed := by
  have proper : id ≠ defaultId := fun fixed => h _ (.default fixed)
  have there : a.hasLocation id :=
    Classical.not_not.1 fun gone => h _ (.missing proper gone)
  rw [setParent_eq ha proper there]
  cases parent with
  | none => rfl
  | some p =>
    have parentThere : a.hasLocation p :=
      Classical.not_not.1 fun gone => h _ (.missingParent proper there gone)
    have hup : ¬ ReflTransGen (HasParent (links a.locations)) p id := fun hup =>
      h _ (.cycle proper there parentThere
        (Relation.reflTransGen_iff_eq_or_transGen.1 hup))
    rw [Option.elim_some, checkParent_eq_ok ha hf parentThere hup]
    rfl

theorem setParent_eq_error_iff {parent : Option String} {e : ArchiveError} :
    a.setParent id parent = .error e ↔ a.Unlinkable id parent e := by
  refine ⟨fun he => ?_, setParent_of_unlinkable ha hf⟩
  by_contra hnot
  have hnone : ∀ e', ¬ a.Unlinkable id parent e' := by
    intro e' hbad
    obtain rfl : e = e' :=
      Except.error.inj (he.symm.trans (setParent_of_unlinkable ha hf hbad))
    exact hnot hbad
  rw [setParent_eq_ok ha hf hnone] at he
  cases he

end Forest

/-- A location of a reachable archive may be given any parent that is neither the
location itself nor below it, and these are the parents with which the links of all
locations are accepted as those of a document are.  Giving it another parent is
refused as a cycle.  A parent that is set changes one link and nothing else but
that there is something to save, and where it is refused, which happens for the
four reasons of `Unlinkable`, nothing has changed. -/
theorem linked_of_reachable {allowed : Operation → Prop} (h : Reachable allowed a)
    (id : String) :
    (id ≠ defaultId → a.hasLocation id → ∀ p, a.hasLocation p →
      ((∃ b, a.setParent id (some p) = .ok b) ↔
        checkLinks (linkedTo id (some p) a.locations) = .ok ()) ∧
      (checkLinks (linkedTo id (some p) a.locations) = .ok () ↔
        id ≠ p ∧ ¬ TransGen (HasParent (links a.locations)) p id) ∧
      (checkLinks (linkedTo id (some p) a.locations) ≠ .ok () →
        a.setParent id (some p) = .error (.parentCycle id p))) ∧
    ∀ parent,
      (∀ b, a.setParent id parent = .ok b →
        b = { a with
          locations := linkedTo id parent a.locations
          dirty := true }) ∧
      ∀ e, (a.setParent id parent = .error e ↔ a.Unlinkable id parent e) ∧
        (a.setParent id parent = .error e →
          a.perform (.setParent id parent) = a) := by
  have ha := h.wellFormed
  have hf := h.isForest
  constructor
  · intro proper there p parentThere
    obtain ⟨hallowed, hsound⟩ := checkParent_iff ha hf proper there parentThere
    have hcircle : ¬ ReflTransGen (HasParent (links a.locations)) p id ↔
        id ≠ p ∧ ¬ TransGen (HasParent (links a.locations)) p id := by
      rw [Relation.reflTransGen_iff_eq_or_transGen, not_or]
    have hrefused (hbad : checkLinks (linkedTo id (some p) a.locations) ≠ .ok ()) :
        a.setParent id (some p) = .error (.parentCycle id p) := by
      have hup := Classical.not_not.1 fun hnot => hbad (hsound.2 hnot)
      exact setParent_of_unlinkable ha hf (.cycle proper there parentThere
        (Relation.reflTransGen_iff_eq_or_transGen.1 hup))
    refine ⟨⟨?_, ?_⟩, hsound.trans hcircle, hrefused⟩
    · rintro ⟨b, hb⟩
      by_contra hbad
      rw [hrefused hbad] at hb
      cases hb
    · intro hlinks
      rw [setParent_eq ha proper there, Option.elim_some, hallowed.2 hlinks]
      exact ⟨_, rfl⟩
  · intro parent
    refine ⟨fun b hb => ?_, fun e => ⟨setParent_eq_error_iff ha hf, fun he => ?_⟩⟩
    · obtain ⟨-, -, l, hfind, rfl⟩ := of_setParent hb
      obtain ⟨hl, rfl⟩ := mem_of_findLocation? hfind
      rw [put_linkedTo ha hl]
      rfl
    · show a.orElse (a.setParent id parent) = a
      rw [he]
      rfl

/-- A location is not linked to one below it, and is linked to one beside it. -/
theorem linked_of_nested_locations :
    let a := fresh.run [.newLocation "team" (some "default"),
      .newLocation "desk" (some "team"), .newLocation "lab" none]
    a.setParent "team" (some "desk") = .error (.parentCycle "team" "desk") ∧
      a.perform (.setParent "team" (some "desk")) = a ∧
      checkLinks (linkedTo "team" (some "desk") a.locations) ≠ .ok () ∧
      checkLinks (linkedTo "team" (some "lab") a.locations) = .ok () ∧
      ∃ b, a.setParent "team" (some "lab") = .ok b ∧
        links b.locations = [("default", none), ("team", some "lab"),
          ("desk", some "team"), ("lab", none)] := by
  intro a
  have h : Reachable (fun _ => True) a := reachable_run .fresh _
  obtain ⟨hparents, hall⟩ := linked_of_reachable h "team"
  have hthere := hparents (by decide) (by decide +kernel)
  obtain ⟨-, hsound, hrefused⟩ := hthere "desk" (by decide +kernel)
  obtain ⟨hlinks, hsound', -⟩ := hthere "lab" (by decide +kernel)
  have hbelow : HasParent (links a.locations) "desk" "team" := by
    show ("desk", some "team") ∈ links a.locations
    decide +kernel
  have hbad : checkLinks (linkedTo "team" (some "desk") a.locations) ≠ .ok () :=
    fun hok => (hsound.1 hok).2 (.single hbelow)
  have hset : (a.setParent "team" (some "lab")).toOption.isSome := by
    decide +kernel
  obtain ⟨b, hb⟩ : ∃ b, a.setParent "team" (some "lab") = .ok b := by
    obtain ⟨b, hb⟩ := Option.isSome_iff_exists.1 hset
    exact ⟨b, eq_ok_of_toOption hb⟩
  refine ⟨hrefused hbad, ((hall (some "desk")).2 _).2 (hrefused hbad), hbad,
    hlinks.1 ⟨b, hb⟩, b, hb, ?_⟩
  rw [(hall (some "lab")).1 b hb]
  decide +kernel

end Archive

end SettingsArchive
