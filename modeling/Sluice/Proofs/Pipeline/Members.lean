import Mathlib.Data.List.Nodup
import Mathlib.Data.List.Perm.Basic
import Sluice.Proofs.Pipeline.Edit

/-! Members and the links that they list. When no key stands twice, a member is found under its
key, and what is done to one member does not show in another. -/

namespace Sluice

namespace Side

def other : Side → Side
  | .input => .output
  | .output => .input

@[simp] theorem other_other (side : Side) : side.other.other = side := by
  cases side <;> rfl

end Side

/-- The stage that a link touches on one of its sides: its target takes it in. -/
def Link.endOn (l : Link) : Side → String
  | .input => l.target
  | .output => l.source

namespace Member

def bare (m : Member) : Member :=
  { m with incoming := [], outgoing := [] }

@[simp] theorem key_bare (m : Member) : m.bare.key = m.key := rfl

@[simp] theorem id_bare (m : Member) : m.bare.id = m.id := rfl

@[simp] theorem connectors_bare (m : Member) : m.bare.connectors = m.connectors := rfl

@[simp] theorem bare_setLinksOn (m : Member) (side : Side) (links : List Link) :
    (m.setLinksOn side links).bare = m.bare := by
  cases side <;> rfl

theorem linksOn_setLinksOn (m : Member) (side other : Side) (links : List Link) :
    (m.setLinksOn side links).linksOn other = if other = side then links else m.linksOn other := by
  cases side <;> cases other <;> rfl

@[simp] theorem key_setLinksOn (m : Member) (side : Side) (links : List Link) :
    (m.setLinksOn side links).key = m.key := by
  cases side <;> rfl

theorem getElem?_connectors {m : Member} {side : Side} {i : Nat} {c : Connector}
    (h : (m.connectors side)[i]? = some c) : c.stage = m.id ∧ c.side = side ∧ c.slot = i := by
  simp only [connectors, Connector.ofSlots, List.getElem?_map, List.getElem?_zipIdx,
    Option.map_map, Option.map_eq_some_iff] at h
  obtain ⟨s, _, rfl⟩ := h
  simp

theorem mem_connectors {m : Member} {side : Side} {c : Connector} (h : c ∈ m.connectors side) :
    c.stage = m.id ∧ c.side = side ∧ (m.connectors side)[c.slot]? = some c := by
  obtain ⟨i, hi⟩ := List.getElem?_of_mem h
  obtain ⟨hs, hd, rfl⟩ := getElem?_connectors hi
  exact ⟨hs, hd, hi⟩

theorem place_of_mem {m : Member} {side : Side} {c : Connector} (h : c ∈ m.connectors side) :
    c.place = (m.id, side, c.slot) := by
  obtain ⟨hstage, hside, _⟩ := mem_connectors h
  rw [Connector.place, hstage, hside]

theorem slots_increasing (m : Member) (side : Side) :
    (m.connectors side).Pairwise fun c d => c.slot < d.slot := by
  have slots : (m.connectors side).map Connector.slot = List.range (m.slots side).length := by
    simp [connectors, Connector.ofSlots, Function.comp_def, List.range_eq_range']
  exact List.pairwise_map.1 (slots ▸ List.pairwise_lt_range)

theorem slots_nodup (m : Member) (side : Side) :
    ((m.connectors side).map Connector.slot).Nodup :=
  List.pairwise_map.2 ((m.slots_increasing side).imp Nat.ne_of_lt)

end Member

namespace Pipeline

def frame (p : Pipeline) : List Member :=
  p.members.map Member.bare

theorem keys_eq_of_frame {p q : Pipeline} (h : q.frame = p.frame) : q.keys = p.keys := by
  have := congrArg (List.map Member.key) h
  simpa [frame, keys, Function.comp_def] using this

theorem contains_iff {p : Pipeline} {key : String} : p.contains key = true ↔ key ∈ p.keys := by
  simp [contains, member?, keys, List.find?_isSome]

theorem mem_of_member? {p : Pipeline} {key : String} {m : Member} (h : p.member? key = some m) :
    m ∈ p.members ∧ m.key = key :=
  ⟨List.mem_of_find?_eq_some h, by simpa using List.find?_some h⟩

theorem mem_keys_of_member? {p : Pipeline} {key : String} {m : Member}
    (h : p.member? key = some m) : key ∈ p.keys := by
  obtain ⟨hm, rfl⟩ := mem_of_member? h
  exact List.mem_map_of_mem hm

theorem member?_eq_none_iff {p : Pipeline} {key : String} :
    p.member? key = none ↔ key ∉ p.keys := by
  rw [← contains_iff, contains]
  cases p.member? key <;> simp

theorem member?_of_mem {p : Pipeline} (hk : p.keys.Nodup) {m : Member} (h : m ∈ p.members) :
    p.member? m.key = some m := by
  cases hm : p.member? m.key with
  | none => exact absurd (List.mem_map_of_mem h) (member?_eq_none_iff.1 hm)
  | some n =>
    obtain ⟨hn, hkey⟩ := mem_of_member? hm
    rw [List.inj_on_of_nodup_map hk hn h hkey]

theorem member?_eq_some_iff {p : Pipeline} (hk : p.keys.Nodup) {key : String} {m : Member} :
    p.member? key = some m ↔ m ∈ p.members ∧ m.key = key := by
  constructor
  · exact mem_of_member?
  · rintro ⟨hm, rfl⟩
    exact member?_of_mem hk hm

theorem exists_member {p : Pipeline} {key : String} (h : key ∈ p.keys) :
    ∃ m ∈ p.members, m.key = key := by
  simpa [keys] using h

theorem find_eq_ok_iff {p : Pipeline} {key : String} {m : Member} :
    p.find key = .ok m ↔ p.member? key = some m := by
  unfold find
  cases p.member? key <;> simp [pure, Except.pure, throw, throwThe, MonadExceptOf.throw]

theorem linksOn_of_mem {p : Pipeline} (hk : p.keys.Nodup) {m : Member} (h : m ∈ p.members)
    (side : Side) : p.linksOn m.key side = m.linksOn side := by
  rw [linksOn, member?_of_mem hk h]

theorem linksOn_of_not_mem {p : Pipeline} {key : String} (h : key ∉ p.keys) (side : Side) :
    p.linksOn key side = [] := by
  rw [linksOn, member?_eq_none_iff.2 h]

@[simp] theorem linksOn_table (p : Pipeline) (table : List Link) :
    ({ p with links := table } : Pipeline).linksOn = p.linksOn := rfl

theorem member?_modify (p : Pipeline) (key other : String) {f : Member → Member}
    (hf : ∀ m, (f m).key = m.key) :
    (p.modify key f).member? other =
      (p.member? other).map fun m => if m.key = key then f m else m := by
  have hg : ∀ m : Member, (if m.key = key then f m else m).key = m.key := by
    intro m
    split <;> simp [hf]
  simp only [member?, modify, List.find?_map, Function.comp_def, hg]

theorem member?_modifyJob (p : Pipeline) (serial : Nat) (key : String) {f : Member → Member}
    (hf : ∀ m, (f m).key = m.key) :
    (p.modifyJob serial f).member? key =
      (p.member? key).map fun m => if m.serial = serial then f m else m := by
  have hg : ∀ m : Member, (if m.serial = serial then f m else m).key = m.key := by
    intro m
    split <;> simp [hf]
  simp only [member?, modifyJob, List.find?_map, Function.comp_def, hg]

theorem keys_modifyJob (p : Pipeline) (serial : Nat) {f : Member → Member}
    (hf : ∀ m, (f m).key = m.key) : (p.modifyJob serial f).keys = p.keys := by
  simp only [keys, modifyJob, List.map_map]
  refine List.map_congr_left fun m _ => ?_
  simp only [Function.comp]
  split <;> simp [hf]

theorem frame_modify (p : Pipeline) (key : String) {f : Member → Member}
    (hf : ∀ m, (f m).bare = m.bare) : (p.modify key f).frame = p.frame := by
  simp only [frame, modify, List.map_map]
  refine List.map_congr_left fun m _ => ?_
  simp only [Function.comp]
  split <;> simp [hf]

theorem linksOn_modify_setLinksOn (p : Pipeline) (key other : String) (side which : Side)
    (g : Member → List Link) :
    (p.modify key fun m => m.setLinksOn side (g m)).linksOn other which =
      if other = key ∧ which = side then (p.member? key).elim [] g else p.linksOn other which := by
  rw [linksOn, member?_modify p key other fun m => m.key_setLinksOn side (g m)]
  by_cases ho : other = key
  · subst ho
    cases hm : p.member? other with
    | none => simp [linksOn, hm]
    | some m => simp [linksOn, hm, (mem_of_member? hm).2, Member.linksOn_setLinksOn]
  · cases hm : p.member? other with
    | none => simp [linksOn, hm, ho]
    | some m =>
      have hkey : m.key ≠ key := (mem_of_member? hm).2 ▸ ho
      simp [linksOn, hm, ho, hkey]

theorem map_bare_member? (p : Pipeline) (key : String) :
    (p.member? key).map Member.bare = p.frame.find? fun m => m.key == key := by
  simp [member?, frame, List.find?_map, Function.comp_def]

theorem bare_eq_of_frame {p q : Pipeline} (h : q.frame = p.frame) (key : String) :
    (q.member? key).map Member.bare = (p.member? key).map Member.bare := by
  rw [map_bare_member?, map_bare_member?, h]

theorem outputAt_eq_of_frame {p q : Pipeline} (h : q.frame = p.frame) :
    q.outputAt = p.outputAt := by
  funext key slot
  have := bare_eq_of_frame h key
  unfold outputAt
  cases hq : q.member? key <;> cases hp : p.member? key <;> simp [hq, hp] at this ⊢
  have hc := congrArg (fun m => m.connectors .output) this
  simp only [Member.connectors_bare] at hc
  rw [Member.outputs, Member.outputs, hc]

theorem inputAt_eq_of_frame {p q : Pipeline} (h : q.frame = p.frame) : q.inputAt = p.inputAt := by
  funext key slot
  have := bare_eq_of_frame h key
  unfold inputAt
  cases hq : q.member? key <;> cases hp : p.member? key <;> simp [hq, hp] at this ⊢
  have hc := congrArg (fun m => m.connectors .input) this
  simp only [Member.connectors_bare] at hc
  rw [Member.inputs, Member.inputs, hc]

theorem mem_of_frame {p q : Pipeline} (h : q.frame = p.frame) {m : Member} (hm : m ∈ q.members) :
    ∃ n ∈ p.members, n.bare = m.bare := by
  have : m.bare ∈ p.frame := h ▸ List.mem_map_of_mem hm
  simpa [frame] using this

end Pipeline

end Sluice
