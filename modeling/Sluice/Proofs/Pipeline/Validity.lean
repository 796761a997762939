import Sluice.Pipeline.Validation
import Sluice.Proofs.Pipeline.Growing

/-! What the check of a pipeline says. In a sound pipeline with a dependency order the errors are
the required inputs without links and the warnings the outputs without links. -/

namespace Sluice

theorem filterM_eq {ε α : Type} {f : α → Except ε Bool} {g : α → Bool} {as : List α}
    (h : ∀ a ∈ as, f a = .ok (g a)) : as.filterM f = .ok (as.filter g) := by
  have aux : ∀ found, as.filterAuxM f found = .ok ((as.filter g).reverse ++ found) := by
    induction as with
    | nil => exact fun found => rfl
    | cons a r ih =>
      intro found
      rw [List.filterAuxM, h a (by simp), ok_bind, ih fun b hb => h b (by simp [hb])]
      cases hg : g a <;> simp [hg]
  rw [List.filterM, aux, ok_bind, List.append_nil, List.reverse_reverse]
  rfl

namespace Pipeline

variable {p : Pipeline}

def isOpen (p : Pipeline) (c : Connector) : Bool :=
  (p.linksAt c).isEmpty

def openInputs (p : Pipeline) (m : Member) : List Connector :=
  (m.inputs.filter Connector.required).filter p.isOpen

def openOutputs (p : Pipeline) (m : Member) : List Connector :=
  m.outputs.filter p.isOpen

def Filled (p : Pipeline) : Prop :=
  ∀ m ∈ p.members, ∀ c ∈ m.inputs, c.required = true → p.linksAt c ≠ []

theorem openInputs_eq_nil {m : Member} :
    p.openInputs m = [] ↔ ∀ c ∈ m.inputs, c.required = true → p.linksAt c ≠ [] := by
  simp only [openInputs, isOpen, List.filter_eq_nil_iff, List.mem_filter, List.isEmpty_iff, and_imp]

def report (p : Pipeline) (v : Validation) (m : Member) : Validation :=
  ⟨v.errors ++ (p.openInputs m).map (openInput m.id),
    v.warnings ++ (p.openOutputs m).map (openOutput m.id)⟩

namespace Sound

theorem unlinked_eq (h : p.Sound) (named : p.Named) (cs : List Connector) :
    p.unlinked cs = .ok (cs.filter p.isOpen) := by
  refine filterM_eq fun c _ => ?_
  obtain ⟨ps, hps, _⟩ := h.peers_eq named c none
  rw [hps, ok_bind, isOpen]
  have hlength := length_peers hps
  refine congrArg Except.ok (Bool.eq_iff_iff.2 ?_)
  rw [List.isEmpty_iff_length_eq_zero, List.isEmpty_iff_length_eq_zero, hlength]

theorem validateMember_eq (h : p.Sound) (named : p.Named) (v : Validation) (m : Member) :
    p.validateMember v m = .ok (p.report v m) := by
  rw [validateMember, h.unlinked_eq named, ok_bind, h.unlinked_eq named, ok_bind]
  rfl

theorem validate_eq (h : p.Sound) (named : p.Named) {placed : List String}
    (arranged : p.arrange = .ok placed) :
    p.validate = .ok (p.members.foldl p.report ⟨[], []⟩) := by
  have members : ∀ (ms : List Member) (v : Validation),
      ms.foldlM p.validateMember v = .ok (ms.foldl p.report v) := by
    intro ms
    induction ms with
    | nil => exact fun v => rfl
    | cons m r ih =>
      intro v
      rw [List.foldlM_cons, h.validateMember_eq named, ok_bind, ih, List.foldl_cons]
  simp only [validate, cycleErrors, arranged]
  exact members _ _

end Sound

theorem errors_foldl_report (ms : List Member) (v : Validation) :
    (ms.foldl p.report v).errors =
      v.errors ++ ms.flatMap fun m => (p.openInputs m).map (openInput m.id) := by
  induction ms generalizing v with
  | nil => simp
  | cons m r ih => simp [ih, report]

theorem Forward.validate (forward : p.Forward) (h : p.Sound) (named : p.Named) :
    ∃ v, p.validate = .ok v ∧ (v.isValid = true ↔ p.Filled) := by
  obtain ⟨placed, arranged⟩ := forward.arrange h
  refine ⟨_, h.validate_eq named arranged, ?_⟩
  rw [Validation.isValid, List.isEmpty_iff, errors_foldl_report, List.nil_append,
    List.flatMap_eq_nil_iff]
  simp only [List.map_eq_nil_iff, openInputs_eq_nil]
  rfl

def Fed (p : Pipeline) (key : String) (slot : Nat) : Prop :=
  ∃ l ∈ p.links, l.target = key ∧ l.targetSlot = slot

theorem Growing.filled_iff (h : p.Growing) :
    p.Filled ↔ ∀ m ∈ p.frame, ∀ c ∈ m.inputs, c.required = true → p.Fed m.key c.slot := by
  have fed : ∀ m ∈ p.members, ∀ c ∈ m.inputs, p.linksAt c ≠ [] ↔ p.Fed m.key c.slot := by
    intro m hm c hc
    have hplace : c.place = (m.key, .input, c.slot) := h.named m hm ▸ Member.place_of_mem hc
    have hside : c.side = .input := (Member.mem_connectors hc).2.1
    rw [ne_eq, List.eq_nil_iff_forall_not_mem]
    simp [h.sound.mem_linksAt, hplace, hside, Link.placeOn, Link.endOn, Link.slotOn, Fed]
  rw [Pipeline.frame, List.forall_mem_map]
  exact forall₂_congr fun m hm => forall₂_congr fun c hc => imp_congr_right fun _ => fed m hm c hc

theorem Growing.not_fed (h : p.Growing) {key : String} (fresh : key ∉ p.keys) (slot : Nat) :
    ¬p.Fed key slot := by
  rintro ⟨l, hl, rfl, _⟩
  exact fresh (h.forward l hl).2

theorem Joined.fed_iff {q : Pipeline} {key other : String} {slots : List Nat} {slot : Nat}
    (h : Joined key slots p q) :
    q.Fed other slot ↔ p.Fed other slot ∨ other = key ∧ slot ∈ slots := by
  obtain ⟨new, links, rfl, targets⟩ := h.links
  simp only [Fed, links, List.mem_append, or_and_right, exists_or]
  refine or_congr_right ⟨?_, ?_⟩
  · rintro ⟨l, hl, rfl, rfl⟩
    exact ⟨targets l hl, List.mem_map_of_mem hl⟩
  · rintro ⟨rfl, hslot⟩
    obtain ⟨l, hl, rfl⟩ := List.mem_map.1 hslot
    exact ⟨l, hl, targets l hl, rfl⟩

theorem Growing.filled_append (h : p.Growing) {q r : Pipeline} {s : Stage} {key : String}
    {slots : List Nat} (appended : Appended s key p q) (joined : Joined key slots q r)
    (growing : r.Growing) :
    r.Filled ↔ p.Filled ∧ ∀ c ∈ (newMember s key).inputs, c.required = true → c.slot ∈ slots := by
  have fed : ∀ other slot, r.Fed other slot ↔ p.Fed other slot ∨ other = key ∧ slot ∈ slots := by
    intro other slot
    rw [joined.fed_iff, Fed, appended.links]
    rfl
  have frame : r.frame = p.frame ++ [newMember s key] := by
    rw [joined.frame, Pipeline.frame, appended.members, List.map_append]
    rfl
  rw [growing.filled_iff, h.filled_iff, frame, List.forall_mem_append]
  refine and_congr (forall₂_congr fun m hm => ?_) ?_
  · have hne : m.key ≠ key := by
      rintro rfl
      obtain ⟨n, hn, rfl⟩ := List.mem_map.1 hm
      exact appended.fresh (show n.key ∈ p.keys from List.mem_map_of_mem hn)
    simp [fed, hne]
  · rw [List.forall_mem_singleton]
    refine forall₂_congr fun c _ => imp_congr_right fun _ => ?_
    have unfed : ¬p.Fed (newMember s key).key c.slot := h.not_fed appended.fresh _
    rw [fed, or_iff_right unfed]
    exact and_iff_right rfl

end Pipeline

end Sluice
