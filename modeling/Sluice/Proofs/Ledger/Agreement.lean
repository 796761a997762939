import Sluice.Ledger
import Sluice.Proofs.Pipeline.Members
import Sluice.Proofs.Steps

/-! Ledgers that agree with a pipeline: every part has the keys of its members, once each, and what
stands under a key is what the member of that key has. Such a ledger answers as the pipeline
does. -/

namespace Sluice

open scoped List

def Member.entry (m : Member) : Entry :=
  { m.toJob with id := m.id }

@[simp] theorem Member.entry_setLinksOn (m : Member) (side : Side) (links : List Link) :
    (m.setLinksOn side links).entry = m.entry := by
  cases side <;> rfl

namespace Ledger

structure Agrees (s : Ledger) (p : Pipeline) : Prop where
  name : s.name = p.name
  links : s.links = p.links
  nodup : p.keys.Nodup
  order : s.order = p.keys
  entries : ∀ key, s.entries.lookup key = (p.member? key).map Member.entry
  entries_keys : s.entries.map Prod.fst ~ p.keys
  lists : ∀ side key, (s.lists side).lookup key = (p.member? key).map fun m => m.linksOn side
  lists_keys : ∀ side, (s.lists side).map Prod.fst ~ p.keys

@[simp] theorem lists_setLists (s : Ledger) (side other : Side)
    (lists : List (String × List Link)) :
    (s.setLists side lists).lists other = if other = side then lists else s.lists other := by
  cases side <;> cases other <;> rfl

@[simp] theorem name_setLists (s : Ledger) (side : Side) (lists : List (String × List Link)) :
    (s.setLists side lists).name = s.name := by
  cases side <;> rfl

@[simp] theorem entries_setLists (s : Ledger) (side : Side) (lists : List (String × List Link)) :
    (s.setLists side lists).entries = s.entries := by
  cases side <;> rfl

@[simp] theorem order_setLists (s : Ledger) (side : Side) (lists : List (String × List Link)) :
    (s.setLists side lists).order = s.order := by
  cases side <;> rfl

@[simp] theorem links_setLists (s : Ledger) (side : Side) (lists : List (String × List Link)) :
    (s.setLists side lists).links = s.links := by
  cases side <;> rfl

namespace Agrees

variable {s : Ledger} {p : Pipeline}

protected theorem new (name : Option String) : (Ledger.new name).Agrees (Pipeline.new name) where
  name := rfl
  links := rfl
  nodup := List.nodup_nil
  order := rfl
  entries := fun _ => rfl
  entries_keys := .nil
  lists := fun side _ => by cases side <;> rfl
  lists_keys := fun side => by cases side <;> exact .nil

theorem holds (h : s.Agrees p) (key : String) : s.holds key = p.contains key := by
  rw [Ledger.holds, h.entries, Pipeline.contains, Option.isSome_map]

theorem lookup_lists (h : s.Agrees p) {key : String} (hk : key ∈ p.keys) (side : Side) :
    (s.lists side).lookup key = some (p.linksOn key side) := by
  obtain ⟨m, hm, rfl⟩ := Pipeline.exists_member hk
  rw [h.lists, Pipeline.linksOn, Pipeline.member?_of_mem h.nodup hm, Option.map_some]

theorem outputAt (h : s.Agrees p) : s.outputAt = p.outputAt := by
  funext key slot
  rw [Ledger.outputAt, look, h.entries, Pipeline.outputAt]
  cases p.member? key <;> rfl

theorem inputAt (h : s.Agrees p) : s.inputAt = p.inputAt := by
  funext key slot
  rw [Ledger.inputAt, look, h.entries, Pipeline.inputAt]
  cases p.member? key <;> rfl

theorem farEnd (h : s.Agrees p) : s.farEnd = p.farEnd := by
  funext side l
  cases side with
  | input => exact congrFun (congrFun h.outputAt l.source) l.sourceSlot
  | output => exact congrFun (congrFun h.inputAt l.target) l.targetSlot

theorem linksAt (h : s.Agrees p) {c : Connector} (hk : c.stage ∈ p.keys) :
    s.linksAt c = .ok (p.linksAt c) := by
  rw [Ledger.linksAt, look, h.lookup_lists hk]
  rfl

theorem peers (h : s.Agrees p) : s.peers = p.peers := by
  funext c among
  rw [Ledger.peers, h.holds, h.farEnd, Pipeline.peers]
  by_cases hk : c.stage ∈ p.keys
  · rw [if_pos (Pipeline.contains_iff.2 hk), h.linksAt hk]
    rfl
  · rw [if_neg (Pipeline.contains_iff.not.2 hk), Pipeline.linksAt,
      Pipeline.linksOn_of_not_mem hk]
    rfl

theorem isFull (h : s.Agrees p) : s.isFull = p.isFull := by
  funext c
  rw [Ledger.isFull, h.peers, Pipeline.isFull]

theorem firstOpen? (h : s.Agrees p) (output : Connector) (cs : List Connector) :
    s.firstOpen? output cs = p.firstOpen? output cs := by
  induction cs with
  | nil => rfl
  | cons c r ih => rw [Ledger.firstOpen?, Pipeline.firstOpen?, h.isFull, ih]

theorem firstPair? (h : s.Agrees p) (inputs cs : List Connector) :
    s.firstPair? inputs cs = p.firstPair? inputs cs := by
  induction cs with
  | nil => rfl
  | cons c r ih =>
    rw [Ledger.firstPair?, Pipeline.firstPair?, h.isFull]
    cases p.isFull c with
    | error e => rfl
    | ok full =>
      cases full with
      | true => exact ih
      | false =>
        change (s.firstOpen? c inputs >>= _) = (p.firstOpen? c inputs >>= _)
        rw [h.firstOpen?]
        cases p.firstOpen? c inputs with
        | error e => rfl
        | ok found =>
          cases found with
          | none => exact ih
          | some d => rfl

theorem look_entries (h : s.Agrees p) {key : String} {m : Member} (hm : p.member? key = some m) :
    look s.entries key = .ok m.entry := by
  rw [look, h.entries, hm]
  rfl

theorem chooseSlots (h : s.Agrees p) {a b : Member} {source target : String}
    (ha : p.member? source = some a) (hb : p.member? target = some b) (i j : Option Int) :
    s.chooseSlots source target i j = p.chooseSlots a b i j := by
  obtain ⟨_, rfl⟩ := Pipeline.mem_of_member? ha
  obtain ⟨_, rfl⟩ := Pipeline.mem_of_member? hb
  cases i <;> cases j <;>
    simp only [Ledger.chooseSlots, Pipeline.chooseSlots, h.look_entries ha, h.look_entries hb,
      ok_bind, h.firstPair?] <;> rfl

theorem allowedLink (h : s.Agrees p) : s.allowedLink = p.allowedLink := by
  funext source target i j
  rw [Ledger.allowedLink, Pipeline.allowedLink, Ledger.member, Ledger.member, h.entries, h.entries,
    Pipeline.member, Pipeline.member]
  cases ha : p.member? source with
  | none => rfl
  | some a =>
    cases hb : p.member? target with
    | none => rfl
    | some b =>
      simp only [Option.map_some, h.chooseSlots ha hb, h.isFull, h.links]
      rfl

theorem size (h : s.Agrees p) : s.entries.length = p.size := by
  rw [← List.length_map (f := Prod.fst), h.entries_keys.length_eq, Pipeline.keys, List.length_map,
    Pipeline.size]

theorem entryKey (h : s.Agrees p) (stage : Stage) (id : Option String) :
    s.entryKey stage id = p.entryKey stage id := by
  have fresh : s.freshId stage.task.name = p.freshId stage.task.name := by
    simp only [Ledger.freshId, Pipeline.freshId, h.size, h.holds]
  unfold Ledger.entryKey Pipeline.entryKey
  cases id with
  | some id => rfl
  | none =>
    cases stage.id with
    | some id => rfl
    | none => exact fresh

end Agrees

end Ledger

end Sluice
