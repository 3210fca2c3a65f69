import SettingsArchive.Proofs.Forest

/-!
# Isolation

An operation on settings, on the backends of a location or on a location as a
whole is addressed to one location, and it leaves all other locations in place,
carried out or refused (`keepsOthers_perform`).

Reads follow a chain of links.  A chain goes the same way in two archives as
long as its locations are in both (`ancestors_of_keepsOthers`), so an operation
is seen from below its location only, and there only at the settings that no
nearer location holds (`isolated_of_reachable`).
-/

namespace SettingsArchive

/-! ## Chains in two archives -/

/-- A chain ends at a location without a parent, or it goes on with the chain
of the parent. -/
theorem chainFrom_cases {locations : List Location} {start : String}
    {steps : Nat} {l : Location} {ls : List Location}
    (h : chainFrom locations start steps l = .ok ls) :
    l.parent = none ∧ ls = [l] ∨
      ∃ parent p fewer above, l.parent = some parent ∧
        findLocation? locations parent = some p ∧
        chainFrom locations start fewer p = .ok above ∧ ls = l :: above := by
  cases hp : l.parent with
  | none =>
    rw [chainFrom_of_none hp] at h
    exact Or.inl ⟨rfl, (Except.ok.inj h).symm⟩
  | some parent =>
    cases steps with
    | zero =>
      rw [chainFrom_zero hp] at h
      cases h
    | succ fewer =>
      rw [chainFrom_succ hp] at h
      split at h
      · cases h
      · rename_i p hfind
        obtain ⟨above, habove, rfl⟩ := map_eq_ok h
        exact Or.inr ⟨parent, p, fewer, above, rfl, hfind, habove, rfl⟩

/-- A chain goes the same way in other locations as long as its locations are
there, and it ends there where it ended before. -/
theorem chainFrom_of_nearer {locations others : List Location}
    {start start' : String} (hn : (others.map Location.id).Nodup)
    {steps steps' : Nat} {l : Location} (hl : l ∈ locations)
    {nearer above found : List Location}
    (h : chainFrom locations start steps l = .ok (nearer ++ above))
    (hnearer : ∀ m ∈ nearer, m ∈ others)
    (hfound : chainFrom others start' steps' l = .ok found) :
    ∃ above', found = nearer ++ above' ∧ (above = [] → above' = []) := by
  induction nearer generalizing l steps steps' found with
  | nil =>
    refine ⟨found, rfl, ?_⟩
    rintro rfl
    obtain ⟨_, heq, -⟩ := of_chainFrom hl h
    cases heq
  | cons m nearer ih =>
    have hrest : ∀ m ∈ nearer, m ∈ others :=
      fun x hx => hnearer x (List.mem_cons_of_mem _ hx)
    rcases chainFrom_cases h with
      ⟨hp, heq⟩ | ⟨parent, p, fewer, ls, hp, hfind, hls, heq⟩
    · obtain ⟨rfl, hnil⟩ := List.cons.inj heq
      obtain ⟨rfl, -⟩ := List.append_eq_nil_iff.1 hnil
      rw [chainFrom_of_none hp] at hfound
      exact ⟨[], (Except.ok.inj hfound).symm, fun _ => rfl⟩
    · obtain ⟨rfl, rfl⟩ := List.cons.inj heq
      obtain ⟨hpl, rfl⟩ := mem_of_findLocation? hfind
      rcases chainFrom_cases hfound with
        ⟨hp', -⟩ | ⟨parent', p', fewer', found, hp', hfind', hfound, rfl⟩
      · cases hp.symm.trans hp'
      · obtain rfl := Option.some.inj (hp.symm.trans hp')
        cases nearer with
        | nil =>
          refine ⟨found, rfl, ?_⟩
          rintro rfl
          obtain ⟨_, heq, -⟩ := of_chainFrom hpl hls
          cases heq
        | cons q nearer =>
          -- The next location is in both, so both links lead to it.
          obtain ⟨_, heq, -⟩ := of_chainFrom hpl hls
          obtain rfl := (List.cons.inj heq).1
          have hq := findLocation?_of_mem hn (hrest q List.mem_cons_self)
          obtain rfl := Option.some.inj (hq.symm.trans hfind')
          obtain ⟨above', rfl, hend⟩ := ih hpl hls hrest hfound
          exact ⟨above', rfl, hend⟩

namespace Archive

variable {a b : Archive}

/-! ## Operations with an address -/

/-- The location that an operation is addressed to, if it is about settings,
about backends of a location or about a location as a whole. -/
def Operation.location? : Operation → Option String
  | .removeLocation id => some id
  | .addBackend id _ => some id
  | .removeBackend id _ => some id
  | .storeValue id _ _ _ _ => some id
  | .storeDocument id _ _ _ _ => some id
  | .storeSnapshot id _ _ _ _ => some id
  | .rollback id _ _ => some id
  | .purge id _ => some id
  | .trim id _ => some id
  | _ => none

/-- The locations of an archive but the one of this id are in another archive
as well. -/
def KeepsOthers (id : String) (a b : Archive) : Prop :=
  ∀ m ∈ a.locations, m.id ≠ id → m ∈ b.locations

theorem KeepsOthers.refl (id : String) (a : Archive) : KeepsOthers id a a :=
  fun _ hm _ => hm

theorem keepsOthers_put {id : String} (hb : b.locations = a.locations)
    {l : Location} (hl : l.id = id) : KeepsOthers id a (b.put l) := by
  intro m hm hne
  refine List.mem_map.2 ⟨m, hb ▸ hm, if_neg ?_⟩
  rwa [hl]

theorem keepsOthers_orElse {id : String} {x : Except ArchiveError Archive}
    (h : ∀ b, x = .ok b → KeepsOthers id a b) :
    KeepsOthers id a (a.orElse x) :=
  orElse_induction (.refl id a) h

theorem id_writeAll (l : Location) (time : Instant) (n : Nat) (mask : Mask)
    (items : List (String × Value)) :
    (writeAll l time n mask items).2.id = l.id := by
  obtain ⟨_, _, _, tree, -, -, -, hl, -⟩ := writeAll_written l time n mask items
  rw [hl]

theorem id_applyAll (l : Location) (time : Instant) (n : Nat)
    (items : List (Path × Value)) : (applyAll l time n items).2.id = l.id := by
  fun_induction applyAll l time n items with
  | case1 => rfl
  | case2 => rfl
  | case3 => rfl
  | case4 _ _ _ _ _ _ _ _ _ ih =>
    rw [ih, Location.id_ensureBackend]

theorem keepsOthers_storeDocument {id backend : String}
    {items : List (String × Value)} {time : Instant} {mask : Mask} :
    KeepsOthers id a (a.storeDocument id backend items time mask).2 := by
  unfold storeDocument
  cases hp : a.prepareDocument id backend items time with
  | error e => exact .refl id a
  | ok prepared =>
    obtain ⟨l, n, b⟩ := prepared
    obtain ⟨-, hl, -, hcount⟩ := of_prepareDocument hp
    have hb : b.locations = a.locations := by
      rcases hcount with ⟨-, -, rfl⟩ | ⟨-, -, -, rfl⟩ <;> rfl
    have hid := id_writeAll l time (n.getD 0) mask items
    rw [(mem_of_findLocation? hl).2] at hid
    dsimp only
    split
    · rename_i m hm
      rw [hm] at hid
      exact keepsOthers_put hb hid
    · rename_i m hm
      rw [hm] at hid
      exact keepsOthers_put hb ((Location.id_ensureBackend m backend).trans hid)

theorem keepsOthers_rollback {id : String} {request : RollbackRequest}
    {now : Instant} : KeepsOthers id a (a.rollback id request now).2 := by
  unfold rollback
  cases hp : a.prepareRollback id request now with
  | error e => exact .refl id a
  | ok prepared =>
    obtain ⟨plan, l, n, b⟩ := prepared
    obtain ⟨-, hl, hcount⟩ := of_prepareRollback hp
    rcases hcount with ⟨-, rfl, rfl⟩ | ⟨-, rfl, -, rfl⟩
    · exact .refl id b
    · have hid := id_applyAll l now a.nextRevision plan.resolved
      rw [(mem_of_findLocation? hl).2] at hid
      dsimp only
      split
      · rename_i m hm
        rw [hm] at hid
        exact keepsOthers_put rfl hid
      · rename_i m hm
        rw [hm] at hid
        exact keepsOthers_put rfl hid

/-- An operation leaves the locations that it is not addressed to, carried out
or refused. -/
theorem keepsOthers_perform {op : Operation} {id : String}
    (hop : op.location? = some id) : KeepsOthers id a (a.perform op) := by
  cases op with
  | removeLocation other =>
    obtain rfl := Option.some.inj hop
    apply keepsOthers_orElse
    intro b hb
    obtain ⟨-, -, -, -, rfl⟩ := of_removeLocation hb
    intro m hm hne
    exact List.mem_filter.2 ⟨hm, by simpa using hne⟩
  | addBackend other backend =>
    obtain rfl := Option.some.inj hop
    apply keepsOthers_orElse
    intro b hb
    obtain ⟨l, hl, -, -, rfl⟩ := of_addBackend hb
    exact keepsOthers_put rfl (mem_of_findLocation? hl).2
  | removeBackend other backend =>
    obtain rfl := Option.some.inj hop
    apply keepsOthers_orElse
    intro b hb
    obtain ⟨l, hl, -, rfl⟩ := of_removeBackend hb
    exact keepsOthers_put rfl (mem_of_findLocation? hl).2
  | storeValue other path value time mask =>
    obtain rfl := Option.some.inj hop
    apply keepsOthers_orElse
    intro b hb
    obtain ⟨⟨n, b⟩, hx, rfl⟩ := map_eq_ok hb
    obtain ⟨backend, l, p, -, hl, -, -, -, -, rfl⟩ := of_storeValue hx
    refine keepsOthers_put rfl ?_
    rw [Location.id_ensureBackend]
    exact (mem_of_findLocation? hl).2
  | storeDocument other backend items time mask =>
    obtain rfl := Option.some.inj hop
    exact keepsOthers_storeDocument
  | storeSnapshot other backend text time mask =>
    obtain rfl := Option.some.inj hop
    show KeepsOthers other a (a.storeSnapshot other backend text time mask).2
    unfold storeSnapshot
    split
    · exact .refl other a
    · split
      · exact .refl other a
      · exact keepsOthers_storeDocument
  | rollback other request now =>
    obtain rfl := Option.some.inj hop
    exact keepsOthers_rollback
  | purge other path =>
    obtain rfl := Option.some.inj hop
    apply keepsOthers_orElse
    intro b hb
    obtain ⟨⟨found, b⟩, hx, rfl⟩ := map_eq_ok hb
    rcases of_purge hx with rfl | ⟨l, p, hl, -, rfl⟩
    · exact .refl other _
    · exact keepsOthers_put rfl (mem_of_findLocation? hl).2
  | trim other kept =>
    obtain rfl := Option.some.inj hop
    apply keepsOthers_orElse
    intro b hb
    obtain ⟨⟨count, b⟩, hx, rfl⟩ := map_eq_ok hb
    rcases of_trim hx with rfl | ⟨l, hl, rfl⟩
    · exact .refl other _
    · exact keepsOthers_put rfl (mem_of_findLocation? hl).2
  | _ => cases hop

/-! ## Reads -/

/-- The chain of a location begins with the same locations behind an operation
that is addressed to none of them, and if the operation is addressed to no
location of the chain, it is the same chain. -/
theorem ancestors_of_keepsOthers {id : String} (h : KeepsOthers id a b)
    (ha : a.WellFormed) (hb : b.WellFormed) (hf : b.IsForest) {m : Location}
    (hm : m ∈ a.locations) {nearer above : List Location}
    (hchain : a.ancestors m.id = .ok (nearer ++ above))
    (hnearer : ∀ l ∈ nearer, l.id ≠ id) (hfirst : m ∈ nearer) :
    ∃ above', b.ancestors m.id = .ok (nearer ++ above') ∧
      (above = [] → above' = []) := by
  have hmb : m ∈ b.locations := h m hm (hnearer m hfirst)
  obtain ⟨found, hfound, -⟩ := hf.ancestors_eq_ok hb hmb
  have hsame := hfound
  unfold ancestors chain at hchain hsame
  rw [findLocation?_of_mem ha.ids hm] at hchain
  rw [findLocation?_of_mem hb.ids hmb] at hsame
  obtain ⟨_, -, hthere⟩ := of_chainFrom hm hchain
  obtain ⟨above', heq, hend⟩ := chainFrom_of_nearer hb.ids hm hchain
    (fun l hl => h l (hthere l (List.mem_append_left _ hl)) (hnearer l hl)) hsame
  exact ⟨above', heq ▸ hfound, hend⟩

/-- A setting that is seen in a first part of the chain does not depend on the
other part. -/
theorem history_of_nearer {id path : String}
    {nearer above above' : List Location}
    (ha : a.ancestors id = .ok (nearer ++ above))
    (hb : b.ancestors id = .ok (nearer ++ above'))
    (hseen : ∃ l ∈ nearer, (l.lookup path).isSome) :
    b.history id path = a.history id path := by
  obtain ⟨l, hl, hseen⟩ := hseen
  unfold history
  cases hpath : Path.ofText? path with
  | none => rfl
  | some segments =>
    rw [Location.lookup, hpath, Option.bind_some] at hseen
    have hfound : (nearer.findSome?
        fun l => (l.tree.get? segments).map (l.id, ·)).isSome := by
      rw [List.findSome?_isSome_iff]
      exact ⟨l, hl, by simpa using hseen⟩
    simp only [ha, hb, bind, Except.bind, List.findSome?_append,
      Option.or_of_isSome hfound]

/-- The value that is read comes from the entry that is seen. -/
theorem get_congr {id path : String}
    (h : b.history id path = a.history id path) :
    b.get id path = a.get id path := by
  unfold get
  rw [h]

/-- A snapshot depends on the location and on its chain only. -/
theorem snapshot_congr {id : String} (hlocation : b.location id = a.location id)
    (hchain : b.ancestors id = a.ancestors id) (backend : Option String)
    (recursive : Bool) :
    b.snapshot id backend recursive = a.snapshot id backend recursive := by
  unfold snapshot scopes
  rw [hlocation, hchain]

/-- An operation that is addressed to a location, carried out or refused,
changes what is read at and below that location only.  There it changes no
setting that a location nearer to the reader holds. -/
theorem isolated_of_reachable {allowed : Operation → Prop}
    (h : Reachable allowed a) {op : Operation} {id : String}
    (hop : op.location? = some id) :
    ∀ m ∈ a.locations, ∃ chain, a.ancestors m.id = .ok chain ∧
      ((∀ l ∈ chain, l.id ≠ id) →
        (∀ path, (a.perform op).get m.id path = a.get m.id path ∧
          (a.perform op).history m.id path = a.history m.id path) ∧
        ∀ backend recursive, (a.perform op).snapshot m.id backend recursive =
          a.snapshot m.id backend recursive) ∧
      ∀ nearer l above, chain = nearer ++ l :: above → l.id = id →
        ∀ path, (∃ n ∈ nearer, (n.lookup path).isSome) →
          (a.perform op).get m.id path = a.get m.id path ∧
            (a.perform op).history m.id path = a.history m.id path := by
  intro m hm
  have h : Reachable (fun _ => True) a := h.mono fun _ _ => trivial
  have hr : Reachable (fun _ => True) (a.perform op) := h.perform trivial
  have hkeeps : KeepsOthers id a (a.perform op) := keepsOthers_perform hop
  obtain ⟨above, hchain, hn, -⟩ := h.isForest.ancestors_eq_ok h.wellFormed hm
  refine ⟨m :: above, hchain, ?_, ?_⟩
  · intro hother
    have hwhole : a.ancestors m.id = .ok ((m :: above) ++ []) := by
      rw [hchain, List.append_nil]
    obtain ⟨above', hchain', hend⟩ := ancestors_of_keepsOthers hkeeps
      h.wellFormed hr.wellFormed hr.isForest hm hwhole hother List.mem_cons_self
    obtain rfl := hend rfl
    have hsame : (a.perform op).ancestors m.id = a.ancestors m.id :=
      hchain'.trans hwhole.symm
    have hmb := hkeeps m hm (hother m List.mem_cons_self)
    have hlocation : (a.perform op).location m.id = a.location m.id := by
      rw [location_eq_ok_iff.2 (findLocation?_of_mem h.wellFormed.ids hm)]
      exact location_eq_ok_iff.2 (findLocation?_of_mem hr.wellFormed.ids hmb)
    refine ⟨fun path => ?_, snapshot_congr hlocation hsame⟩
    have hhistory : (a.perform op).history m.id path = a.history m.id path := by
      unfold history
      rw [hsame]
    exact ⟨get_congr hhistory, hhistory⟩
  · rintro nearer l rest hsplit rfl path hseen
    -- No location repeats in a chain, so the nearer ones are other ones.
    have hnearer : ∀ x ∈ nearer, x.id ≠ l.id := fun x hx heq =>
      Keyed.key_notMem_of_nodup (hsplit ▸ hn) (heq ▸ List.mem_map_of_mem hx)
    have hfirst : m ∈ nearer := by
      obtain ⟨x, hx, -⟩ := hseen
      cases nearer with
      | nil => cases hx
      | cons first nearer =>
        rw [(List.cons.inj hsplit).1]
        exact List.mem_cons_self
    rw [hsplit] at hchain
    obtain ⟨above', hchain', -⟩ := ancestors_of_keepsOthers hkeeps
      h.wellFormed hr.wellFormed hr.isForest hm hchain hnearer hfirst
    have hhistory := history_of_nearer hchain hchain' hseen
    exact ⟨get_congr hhistory, hhistory⟩

/-- A write to a location is seen from below, but not where a nearer location
holds the setting. -/
theorem isolated_of_shadowed_setting :
    let a := fresh.run [.newLocation "team" none,
      .newLocation "desk" (some "team"),
      .storeValue "desk" "/app/size" (.int 1) (.ofSecond 5) .keep]
    let items : List (String × Value) :=
      [("/app/size", .int 2), ("/app/font", .int 3)]
    let op : Operation := .storeDocument "team" "app" items (.ofSecond 6) .keep
    (a.perform op).get "desk" "/app/size" = a.get "desk" "/app/size" ∧
      a.get "desk" "/app/font" = .ok none ∧
      (a.perform op).get "desk" "/app/font" = .ok (some (.int 3)) := by
  intro a items op
  have h : Reachable (fun _ => True) a :=
    ⟨fresh, _, .fresh, fun _ _ => trivial, rfl⟩
  have hdesk : "desk" ∈ a.locations.map Location.id := by decide +kernel
  obtain ⟨m, hm, hid⟩ := List.mem_map.1 hdesk
  have hop : op.location? = some "team" := rfl
  obtain ⟨chain, hchain, -, hshadowed⟩ := isolated_of_reachable h hop m hm
  rw [hid] at hchain hshadowed
  obtain ⟨desk, team, hboth, hteam, hsize⟩ : ∃ desk team,
      a.ancestors "desk" = .ok [desk, team] ∧ team.id = "team" ∧
        (desk.lookup "/app/size").isSome := ⟨_, _, rfl, rfl, rfl⟩
  obtain rfl : [desk, team] = chain := Except.ok.inj (hboth.symm.trans hchain)
  exact ⟨(hshadowed [desk] team [] rfl hteam "/app/size"
    ⟨desk, List.mem_cons_self, hsize⟩).1, rfl, rfl⟩

end Archive

end SettingsArchive
