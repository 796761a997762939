import Sluice.Proofs.Pipeline.Forward

/-! Pipelines that grow. Members come in at the end, and links come in only at the last member: then
all links lead forward, and what could be read from a member before can still be read from it. -/

namespace Sluice.Pipeline

variable {p q : Pipeline} {key : String}

structure Growing (p : Pipeline) : Prop where
  sound : p.Sound
  named : p.Named
  serials : ∀ m ∈ p.members, m.serial < p.size
  forward : p.Forward

theorem Growing.new (name : Option String) : (Pipeline.new name).Growing where
  sound := .new name
  named := by simp [Named, Pipeline.new]
  serials := by simp [Pipeline.new]
  forward := .new name

structure Extends (p q : Pipeline) : Prop where
  outputs : ∀ key slot c, p.outputAt key slot = .ok c → q.outputAt key slot = .ok c
  links : p.links ⊆ q.links

structure Appended (s : Stage) (key : String) (p q : Pipeline) : Prop where
  members : q.members = p.members ++ [newMember s key]
  links : q.links = p.links
  fresh : key ∉ p.keys

namespace Appended

variable {s : Stage}

theorem keys (h : Appended s key p q) : q.keys = p.keys ++ [key] := by
  simp [Pipeline.keys, h.members, newMember]

theorem extension (h : Appended s key p q) : p.Extends q := by
  refine ⟨fun other slot c hc => ?_, h.links ▸ fun _ hl => hl⟩
  obtain ⟨m, hm, hget⟩ := outputAt_eq_ok.1 hc
  refine outputAt_eq_ok.2 ⟨m, ?_, hget⟩
  rw [member?, h.members, List.find?_append]
  rw [member?] at hm
  rw [hm, Option.some_or]

theorem member? (h : Appended s key p q) : q.member? key = some (newMember s key) := by
  have none : p.members.find? (fun m => m.key == key) = none := member?_eq_none_iff.2 h.fresh
  rw [Pipeline.member?, h.members, List.find?_append, none]
  simp [newMember]

end Appended

theorem Growing.add (h : p.Growing) {s : Stage} (id : s.id = none) (serial : s.serial = p.size)
    (name : Text.startsBlank s.task.name = false) (added : p.add s none = .ok (key, q)) :
    q.Growing ∧ Appended s key p q := by
  have fresh : ∀ m ∈ p.members, m.serial ≠ s.serial := fun m hm =>
    serial ▸ Nat.ne_of_lt (h.serials m hm)
  have trimmed : ∀ i, s.id = some i → Text.trim i = i := by simp [id]
  obtain ⟨sound, links, _⟩ := h.sound.add trimmed fresh added
  obtain ⟨entry, new, _, rfl⟩ := (add_eq_ok fresh).1 added
  have appended : Appended s key p { p with members := p.members ++ [newMember s key] } :=
    ⟨rfl, links, new⟩
  refine ⟨⟨sound, fun m hm => ?_, fun m hm => ?_, h.forward.append appended.keys rfl⟩, appended⟩
  · rcases List.mem_append.1 hm with hm | hm
    · exact h.named m hm
    · obtain rfl := List.mem_singleton.1 hm
      change Text.trim key = key
      rw [entry]
      exact trim_entryKey p trimmed none name
  · rw [size, List.length_append, List.length_singleton]
    rcases List.mem_append.1 hm with hm | hm
    · exact Nat.lt_succ_of_lt (h.serials m hm)
    · obtain rfl := List.mem_singleton.1 hm
      change s.serial < p.size + 1
      rw [serial]
      exact Nat.lt_succ_self _

structure Joined (key : String) (slots : List Nat) (p q : Pipeline) : Prop where
  frame : q.frame = p.frame
  links : ∃ new, q.links = p.links ++ new ∧ new.map Link.targetSlot = slots ∧
    ∀ l ∈ new, l.target = key

namespace Joined

theorem refl (key : String) (p : Pipeline) : Joined key [] p p :=
  ⟨rfl, [], by simp⟩

theorem trans {r : Pipeline} {slots more : List Nat} (h : Joined key slots p q)
    (h' : Joined key more q r) : Joined key (slots ++ more) p r := by
  obtain ⟨new, hnew, rfl, htarget⟩ := h.links
  obtain ⟨new', hnew', rfl, htarget'⟩ := h'.links
  refine ⟨h'.frame.trans h.frame, new ++ new', by rw [hnew', hnew, List.append_assoc], by simp, ?_⟩
  intro l hl
  exact (List.mem_append.1 hl).elim (htarget l) (htarget' l)

theorem extension {slots : List Nat} (h : Joined key slots p q) : p.Extends q := by
  obtain ⟨new, hnew, _⟩ := h.links
  refine ⟨fun other slot c hc => ?_, hnew ▸ List.subset_append_left _ _⟩
  rwa [outputAt_eq_of_frame h.frame]

end Joined

theorem Growing.connect (h : p.Growing) {old : List String} (last : p.keys = old ++ [key])
    {source : String} {i j : Nat} {l : Link}
    (made : p.connect source key (some i) (some j) = .ok (l, q)) :
    q.Growing ∧ l = ⟨source, i, key, j⟩ ∧ l ∉ p.links ∧ q.links = p.links ++ [l] ∧
      Joined key [j] p q := by
  obtain ⟨hl, rfl⟩ := connect_eq_ok.1 made
  obtain ⟨c, d, allowed⟩ := allowed_of_ok hl
  have heq := eq_of_allowedLink hl
  subst heq
  have frame := frame_link p ⟨source, i, key, j⟩
  refine ⟨⟨allowed.sound h.sound, h.named.of_frame frame, fun m hm => ?_,
    h.forward.link h.sound.keys_nodup last allowed.fits⟩, rfl, allowed.new, rfl, frame,
    [⟨source, i, key, j⟩], rfl, rfl, by simp⟩
  obtain ⟨n, hn, hb⟩ := mem_of_frame frame hm
  have hserial : n.serial = m.serial := (congrArg (fun m : Member => m.serial) hb :)
  have hsize : (p.link ⟨source, i, key, j⟩).size = p.size := by
    have := congrArg List.length frame
    simpa [Pipeline.frame, size] using this
  rw [← hserial, hsize]
  exact h.serials n hn

end Sluice.Pipeline
