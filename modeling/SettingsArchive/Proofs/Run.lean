import SettingsArchive.Archive.Rollback
import SettingsArchive.Proofs.Path

/-!
# Runs of operations

An archive begins as a new one or as the content of a document, and from there
it goes through operations.  `Operation` has the operations with their
arguments, `Archive.perform` is the archive that one leaves behind, whether it
was carried out or refused, and `Archive.run` goes through a list of them.

`Archive.Reachable` is the set of archives that runs lead to.  What holds in
the beginning and survives every operation holds of all of them, which is
`Reachable.induction`.

Saving is the operation `flush`.  It may fail after the directories without
entries are dropped, which `written` tells.  Saving and reading the saved text
again is the operation `reload`.
-/

namespace SettingsArchive

/-- An operation that may change an archive, with its arguments. -/
inductive Archive.Operation where
  | newLocation (id : String) (parent : Option String)
  | setParent (id : String) (parent : Option String)
  | rename (id newId : String)
  | removeLocation (id : String)
  | setCurrent (id : String)
  | addBackend (id backend : String)
  | removeBackend (id backend : String)
  | addMaster (backend : String)
  | removeMaster (backend : String)
  | storeValue (id path : String) (value : Value) (time : Instant)
      (mask : Mask)
  | storeDocument (id backend : String) (items : List (String × Value))
      (time : Instant) (mask : Mask)
  | storeSnapshot (id backend text : String) (time : Instant) (mask : Mask)
  | rollback (id : String) (request : RollbackRequest) (now : Instant)
  | purge (id path : String)
  | trim (id : String) (kept : Nat)
  | setPolicy (policy : Policy)
  | flush (written : Bool)
  | reload

/-- Settings that are stored together are named by texts with a slash in
front. -/
def Archive.Operation.IsAnchored : Archive.Operation → Prop
  | .storeDocument _ _ items _ _ => ∀ item ∈ items, Path.IsAnchored item.1
  | _ => True

/-- Settings that are stored together are named by texts that spell each path in
one way. -/
def Archive.Operation.SpelledOnce : Archive.Operation → Prop
  | .storeDocument _ _ items _ _ => Path.SpelledOnce (items.map Prod.fst)
  | _ => True

theorem Archive.Operation.IsAnchored.spelledOnce {op : Archive.Operation}
    (h : op.IsAnchored) : op.SpelledOnce := by
  cases op with
  | storeDocument id backend items time mask =>
    exact Path.spelledOnce_of_anchored (List.forall_mem_map.2 h)
  | _ => trivial

namespace Archive

/-- What an operation leaves behind: the new archive, or the old one if it was
refused. -/
def orElse (a : Archive) : Except ArchiveError Archive → Archive
  | .ok b => b
  | .error _ => a

/-- What holds of an archive and of what an operation made of it holds of what
the operation leaves. -/
theorem orElse_induction {a : Archive} {P : Archive → Prop}
    {x : Except ArchiveError Archive} (ha : P a) (h : ∀ b, x = .ok b → P b) : P (a.orElse x) := by
  cases x with
  | error e => exact ha
  | ok b => exact h b rfl

/-- The archive that its own text gives, under the same policy. -/
def reloaded (a : Archive) : Except ArchiveError Archive :=
  (ofText a.text).map fun b => { b with policy := a.policy }

/-- The archive that an operation leaves behind. -/
def perform (a : Archive) : Operation → Archive
  | .newLocation id parent => a.orElse (a.newLocation id parent)
  | .setParent id parent => a.orElse (a.setParent id parent)
  | .rename id newId => a.orElse (a.rename id newId)
  | .removeLocation id => a.orElse (a.removeLocation id)
  | .setCurrent id => a.orElse (a.setCurrent id)
  | .addBackend id backend => a.orElse (a.addBackend id backend)
  | .removeBackend id backend => a.orElse (a.removeBackend id backend)
  | .addMaster backend => a.orElse (a.addMaster backend)
  | .removeMaster backend => a.orElse (a.removeMaster backend)
  | .storeValue id path value time mask =>
    a.orElse ((a.storeValue id path value time mask).map Prod.snd)
  | .storeDocument id backend items time mask =>
    (a.storeDocument id backend items time mask).2
  | .storeSnapshot id backend text time mask =>
    (a.storeSnapshot id backend text time mask).2
  | .rollback id request now => (a.rollback id request now).2
  | .purge id path => a.orElse ((a.purge id path).map Prod.snd)
  | .trim id kept => a.orElse ((a.trim id kept).map Prod.snd)
  | .setPolicy policy => { a with policy }
  | .flush true => a.saved
  | .flush false => a.pruned
  | .reload => a.orElse a.reloaded

/-- The archive that operations leave behind, one after the other. -/
def run (a : Archive) (ops : List Operation) : Archive :=
  ops.foldl perform a

theorem run_append (a : Archive) (before after : List Operation) :
    a.run (before ++ after) = (a.run before).run after :=
  List.foldl_append

theorem run_concat (a : Archive) (ops : List Operation) (op : Operation) :
    a.run (ops ++ [op]) = (a.run ops).perform op :=
  run_append a ops [op]

/-- What survives every operation of a run survives the run. -/
theorem run_induction {P : Archive → Prop} {ops : List Operation}
    (step : ∀ a, ∀ op ∈ ops, P a → P (a.perform op)) {a : Archive} (ha : P a) :
    P (a.run ops) := by
  induction ops generalizing a with
  | nil => exact ha
  | cons op ops ih =>
    exact ih (fun a o ho => step a o (List.mem_cons_of_mem _ ho))
      (step a op List.mem_cons_self ha)

/-- An archive in the beginning: a new one, or what a document holds. -/
inductive IsStart : Archive → Prop where
  | fresh : IsStart fresh
  | read {text : String} {a : Archive} (h : ofText text = .ok a) : IsStart a

/-- The archives that runs of allowed operations lead to. -/
def Reachable (allowed : Operation → Prop) (b : Archive) : Prop :=
  ∃ a ops, IsStart a ∧ (∀ op ∈ ops, allowed op) ∧ a.run ops = b

section Reachable

variable {allowed : Operation → Prop}

theorem reachable_of_isStart {a : Archive} (h : IsStart a) :
    Reachable allowed a :=
  ⟨a, [], h, by simp, rfl⟩

theorem Reachable.run {a : Archive} (h : Reachable allowed a)
    {ops : List Operation} (hops : ∀ op ∈ ops, allowed op) :
    Reachable allowed (a.run ops) := by
  obtain ⟨b, before, hb, hbefore, rfl⟩ := h
  exact ⟨b, before ++ ops, hb, List.forall_mem_append.2 ⟨hbefore, hops⟩,
    run_append b before ops⟩

theorem Reachable.perform {a : Archive} (h : Reachable allowed a)
    {op : Operation} (hop : allowed op) :
    Reachable allowed (a.perform op) :=
  h.run (List.forall_mem_singleton.2 hop)

/-- Whatever the operations, they lead on to an archive. -/
theorem reachable_run {a : Archive} (h : IsStart a) (ops : List Operation) :
    Reachable (fun _ => True) (a.run ops) :=
  (reachable_of_isStart h).run fun _ _ => trivial

/-- More operations lead to more archives. -/
theorem Reachable.mono {more : Operation → Prop} {a : Archive}
    (hmore : ∀ op, allowed op → more op) (h : Reachable allowed a) :
    Reachable more a := by
  obtain ⟨b, ops, hb, hops, hrun⟩ := h
  exact ⟨b, ops, hb, fun op hop => hmore op (hops op hop), hrun⟩

/-- What holds in the beginning and survives every operation holds of every
archive that is reached. -/
theorem Reachable.induction {P : Archive → Prop} {b : Archive}
    (h : Reachable allowed b) (start : ∀ a, IsStart a → P a)
    (step : ∀ a op, Reachable allowed a → P a → allowed op →
      P (a.perform op)) : P b := by
  obtain ⟨a, ops, ha, hops, rfl⟩ := h
  have hrun : Reachable allowed (a.run ops) ∧ P (a.run ops) := by
    refine run_induction (P := fun a => Reachable allowed a ∧ P a) ?_
      ⟨reachable_of_isStart ha, start a ha⟩
    rintro a op hop ⟨hra, hPa⟩
    exact ⟨hra.perform (hops op hop), step a op hra hPa (hops op hop)⟩
  exact hrun.2

end Reachable

end Archive

end SettingsArchive
