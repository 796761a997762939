import Sluice.Proofs.Pipeline.Identity
import Sluice.Proofs.Pipeline.Placing

/-! Sound pipelines: no key and no link stands twice, links join slots of one flow, each member
lists the links of the table that touch it, and a member whose two ids agree has no connector with
more links than its flow allows. Every regular edit keeps a pipeline sound. -/

namespace Sluice

def Link.Avoids (l : Link) (gone : List String) : Prop :=
  l.source ∉ gone ∧ l.target ∉ gone

instance (l : Link) (gone : List String) : Decidable (l.Avoids gone) :=
  inferInstanceAs (Decidable (_ ∧ _))

theorem Link.Avoids.endOn {l : Link} {gone : List String} (h : l.Avoids gone) (side : Side) :
    l.endOn side ∉ gone := by
  cases side with
  | input => exact h.2
  | output => exact h.1

theorem Link.avoids_of_ends {l : Link} {gone : List String} (side : Side)
    (near : l.endOn side ∉ gone) (far : l.endOn side.other ∉ gone) : l.Avoids gone := by
  cases side with
  | input => exact ⟨far, near⟩
  | output => exact ⟨near, far⟩

namespace Pipeline

open scoped List

def Fits (p : Pipeline) (l : Link) : Prop :=
  l.source ≠ l.target ∧ ∃ c d, p.outputAt l.source l.sourceSlot = .ok c ∧
    p.inputAt l.target l.targetSlot = .ok d ∧ c.flow = d.flow

structure Sound (p : Pipeline) : Prop where
  keys_nodup : p.keys.Nodup
  links_nodup : p.links.Nodup
  fits : ∀ l ∈ p.links, p.Fits l
  listed : ∀ key ∈ p.keys, ∀ side,
    p.linksOn key side ~ p.links.filter fun l => l.endOn side = key
  room : ∀ m ∈ p.members, m.id = m.key → ∀ side, ∀ c ∈ m.connectors side,
    (p.linksAt c).length ≤ c.capacity
  known : ∀ m ∈ p.members, Text.startsBlank m.task.name = false → m.id = m.key

theorem outputAt_eq_ok {p : Pipeline} {key : String} {slot : Nat} {c : Connector} :
    p.outputAt key slot = .ok c ↔ ∃ m, p.member? key = some m ∧ m.outputs[slot]? = some c := by
  unfold outputAt
  cases hm : p.member? key with
  | none => simp
  | some m => cases hc : m.outputs[slot]? <;> simp [hc]

theorem inputAt_eq_ok {p : Pipeline} {key : String} {slot : Nat} {c : Connector} :
    p.inputAt key slot = .ok c ↔ ∃ m, p.member? key = some m ∧ m.inputs[slot]? = some c := by
  unfold inputAt
  cases hm : p.member? key with
  | none => simp
  | some m => cases hc : m.inputs[slot]? <;> simp [hc]

theorem Fits.mem_keys {p : Pipeline} {l : Link} (h : p.Fits l) (side : Side) :
    l.endOn side ∈ p.keys := by
  obtain ⟨_, c, d, hc, hd, _⟩ := h
  cases side with
  | input =>
    obtain ⟨m, hm, _⟩ := inputAt_eq_ok.1 hd
    exact mem_keys_of_member? hm
  | output =>
    obtain ⟨m, hm, _⟩ := outputAt_eq_ok.1 hc
    exact mem_keys_of_member? hm

theorem outputAt_congr {p q : Pipeline} {key : String} (h : q.member? key = p.member? key)
    (slot : Nat) : q.outputAt key slot = p.outputAt key slot := by
  rw [outputAt, outputAt, h]

theorem inputAt_congr {p q : Pipeline} {key : String} (h : q.member? key = p.member? key)
    (slot : Nat) : q.inputAt key slot = p.inputAt key slot := by
  rw [inputAt, inputAt, h]

theorem Fits.congr {p q : Pipeline} {l : Link} (h : p.Fits l)
    (ends : ∀ side, q.member? (l.endOn side) = p.member? (l.endOn side)) : q.Fits l := by
  obtain ⟨hne, c, d, hc, hd, hf⟩ := h
  exact ⟨hne, c, d, (outputAt_congr (ends .output) _).trans hc,
    (inputAt_congr (ends .input) _).trans hd, hf⟩

def Thinned (p q : Pipeline) : Prop :=
  ∃ keep : Link → Bool, q.links = p.links.filter keep ∧
    ∀ key side, q.linksOn key side = (p.linksOn key side).filter keep

theorem Thinned.refl (p : Pipeline) : p.Thinned p :=
  ⟨fun _ => true, by simp, by simp⟩

structure Pruned (p : Pipeline) (gone : List String) (q : Pipeline) : Prop where
  frame : q.frame = p.frame.filter fun m => m.key ∉ gone
  links : q.links = p.links.filter fun l => l.Avoids gone
  lists : ∀ key side, q.linksOn key side = (p.linksOn key side).filter fun l => l.Avoids gone

namespace Sound

variable {p q : Pipeline}

theorem linksOn_nodup (h : p.Sound) (key : String) (side : Side) : (p.linksOn key side).Nodup := by
  by_cases hk : key ∈ p.keys
  · exact (h.listed key hk side).nodup_iff.2 (h.links_nodup.filter _)
  · simp [linksOn_of_not_mem hk]

theorem mem_linksOn (h : p.Sound) {key : String} {side : Side} {l : Link} :
    l ∈ p.linksOn key side ↔ l ∈ p.links ∧ l.endOn side = key := by
  by_cases hk : key ∈ p.keys
  · simp [(h.listed key hk side).mem_iff]
  · simp only [linksOn_of_not_mem hk, List.not_mem_nil, false_iff]
    rintro ⟨hl, rfl⟩
    exact hk ((h.fits l hl).mem_keys side)

theorem relist (h : p.Sound) (keys : q.keys ~ p.keys) (out : q.outputAt = p.outputAt)
    (inp : q.inputAt = p.inputAt)
    (members : ∀ m ∈ q.members, ∃ n ∈ p.members, n.key = m.key ∧ n.id = m.id ∧ n.task = m.task)
    (links : q.links <+ p.links)
    (listed : ∀ key ∈ q.keys, ∀ side,
      q.linksOn key side ~ q.links.filter fun l => l.endOn side = key) : q.Sound where
  keys_nodup := keys.nodup_iff.2 h.keys_nodup
  links_nodup := h.links_nodup.sublist links
  fits := by
    intro l hl
    have := h.fits l (links.subset hl)
    unfold Fits at this ⊢
    rwa [out, inp]
  listed := listed
  room := by
    intro m hm hid side c hc
    obtain ⟨n, hn, hkey, hid', htask⟩ := members m hm
    have hmk : m.key ∈ q.keys := List.mem_map_of_mem hm
    have hsame : n.connectors side = m.connectors side := by
      cases side <;> simp only [Member.connectors, Job.slots, hid', htask]
    have hle := h.room n hn (hid'.trans (hid.trans hkey.symm)) side c (hsame ▸ hc)
    refine Nat.le_trans (List.Subperm.length_le ?_) hle
    refine List.Subperm.filter _ ?_
    have hstage : c.stage = m.key := (Member.mem_connectors hc).1.trans hid
    rw [hstage]
    refine (listed _ hmk _).subperm.trans ?_
    exact (links.filter _).subperm.trans (h.listed _ (keys.mem_iff.1 hmk) _).symm.subperm
  known := by
    intro m hm hb
    obtain ⟨n, hn, hkey, hid, htask⟩ := members m hm
    rw [← hkey, ← hid]
    exact h.known n hn (by rwa [htask])

theorem of_frame (h : p.Sound) (frame : q.frame = p.frame) (links : q.links <+ p.links)
    (listed : ∀ key ∈ p.keys, ∀ side,
      q.linksOn key side ~ q.links.filter fun l => l.endOn side = key) : q.Sound := by
  have keys := keys_eq_of_frame frame
  refine h.relist (.of_eq keys) (outputAt_eq_of_frame frame) (inputAt_eq_of_frame frame) ?_ links
    (keys ▸ listed)
  intro m hm
  obtain ⟨n, hn, hb⟩ := mem_of_frame frame hm
  exact ⟨n, hn, (congrArg Member.key hb :), (congrArg Member.id hb :),
    (congrArg (fun k => k.task) hb :)⟩

protected theorem new (name : Option String) : (Pipeline.new name).Sound where
  keys_nodup := List.nodup_nil
  links_nodup := List.nodup_nil
  fits := by simp [Pipeline.new]
  listed := by simp [Pipeline.new, keys]
  room := by simp [Pipeline.new]
  known := by simp [Pipeline.new]

theorem clear (p : Pipeline) : p.clear.Sound where
  keys_nodup := List.nodup_nil
  links_nodup := List.nodup_nil
  fits := by simp [Pipeline.clear]
  listed := by simp [Pipeline.clear, keys]
  room := by simp [Pipeline.clear]
  known := by simp [Pipeline.clear]

theorem drop (h : p.Sound) {l : Link} (hl : l ∈ p.links) :
    ∃ q, p.drop l = (q, none) ∧ q.Sound ∧ q.frame = p.frame ∧
      q.links = (p.links.filter fun k => k ≠ l) ∧
      ∀ key side, q.linksOn key side = (p.linksOn key side).filter fun k => k ≠ l := by
  obtain ⟨q, hq, hlinks, hframe, hlists⟩ :=
    drop_eq hl fun side => h.mem_linksOn.2 ⟨hl, rfl⟩
  have lists : ∀ key side, q.linksOn key side = (p.linksOn key side).filter fun k => k ≠ l := by
    intro key side
    rw [hlists]
    split
    · exact erase_eq_filter (h.linksOn_nodup key side) l
    · rename_i hne
      refine (List.filter_eq_self.2 fun k hk => ?_).symm
      have : k ≠ l := by
        rintro rfl
        exact hne (h.mem_linksOn.1 hk).2
      simpa using this
  rw [erase_eq_filter h.links_nodup] at hlinks
  refine ⟨q, hq, ?_, hframe, hlinks, lists⟩
  refine h.of_frame hframe (hlinks ▸ List.filter_sublist) fun key hk side => ?_
  rw [lists, hlinks, List.filter_comm]
  exact (h.listed key hk side).filter _

theorem dropAll (h : p.Sound) {ls : List Link} (nodup : ls.Nodup) (inside : ∀ l ∈ ls, l ∈ p.links) :
    ∃ q, p.dropAll ls = (q, none) ∧ q.Sound ∧ q.frame = p.frame ∧
      q.links = (p.links.filter fun k => k ∉ ls) ∧
      ∀ key side, q.linksOn key side = (p.linksOn key side).filter fun k => k ∉ ls := by
  induction ls generalizing p with
  | nil => exact ⟨p, rfl, h, rfl, by simp, by simp⟩
  | cons l r ih =>
    obtain ⟨hl, hr⟩ := List.nodup_cons.1 nodup
    obtain ⟨q, hq, hsound, hframe, hlinks, hlists⟩ := h.drop (inside l (by simp))
    have inside' : ∀ k ∈ r, k ∈ q.links := by
      intro k hk
      rw [hlinks]
      have : k ≠ l := by
        rintro rfl
        exact hl hk
      simpa [this] using inside k (by simp [hk])
    obtain ⟨s, hs, hsound', hframe', hlinks', hlists'⟩ := ih hsound hr inside'
    have both : ∀ ks : List Link, (ks.filter fun k => k ≠ l).filter (fun k => k ∉ r) =
        ks.filter fun k => k ∉ l :: r := by
      intro ks
      rw [List.filter_filter]
      exact List.filter_congr fun k _ => by simp [Bool.and_comm]
    refine ⟨s, ?_, hsound', hframe'.trans hframe, ?_, fun key side => ?_⟩
    · rw [Pipeline.dropAll, hq]
      exact hs
    · rw [hlinks', hlinks, both]
    · rw [hlists', hlists, both]

theorem disconnect (h : p.Sound) (l : Link) :
    (p.disconnect l).1.Sound ∧ p.Thinned (p.disconnect l).1 := by
  unfold Pipeline.disconnect
  split
  · rename_i hl
    obtain ⟨q, hq, hsound, _, hlinks, hlists⟩ := h.drop (by simpa using hl)
    rw [hq]
    exact ⟨hsound, _, hlinks, hlists⟩
  · exact ⟨h, .refl p⟩

theorem unlink (h : p.Sound) (c : Connector) :
    (p.unlink c).1.Sound ∧ p.Thinned (p.unlink c).1 := by
  have nodup := (h.linksOn_nodup c.stage c.side).filter fun l => l.slotOn c.side == c.slot
  obtain ⟨q, hq, hsound, _, hlinks, hlists⟩ := h.dropAll nodup fun l hl =>
    (h.mem_linksOn.1 (List.mem_filter.1 hl).1).1
  rw [Pipeline.unlink, hq]
  exact ⟨hsound, _, hlinks, hlists⟩

def without (p : Pipeline) (key : String) : Pipeline :=
  { p with members := p.members.filter fun m => m.key ≠ key }

theorem member?_without (p : Pipeline) {key other : String} (h : other ≠ key) :
    (without p key).member? other = p.member? other :=
  member?_filter p h

theorem without_sound (h : p.Sound) {key : String}
    (free : ∀ l ∈ p.links, ∀ side, l.endOn side ≠ key) : (without p key).Sound where
  keys_nodup := h.keys_nodup.sublist (List.filter_sublist.map _)
  links_nodup := h.links_nodup
  fits := fun l hl => (h.fits l hl).congr fun side => member?_without p (free l hl side)
  listed := by
    intro k hk side
    obtain ⟨m, hm, rfl⟩ := exists_member hk
    obtain ⟨hmem, hne⟩ := List.mem_filter.1 hm
    rw [linksOn, member?_without p (by simpa using hne)]
    exact h.listed _ (List.mem_map_of_mem hmem) side
  room := by
    intro m hm hid side c hc
    obtain ⟨hmem, hne⟩ := List.mem_filter.1 hm
    have hstage : c.stage ≠ key := by
      rw [(Member.mem_connectors hc).1, hid]
      simpa using hne
    rw [linksAt, linksOn, member?_without p hstage]
    exact h.room m hmem hid side c hc
  known := fun m hm => h.known m (List.mem_filter.1 hm).1

theorem linksOn_without (h : p.Sound) {key : String}
    (free : ∀ l ∈ p.links, ∀ side, l.endOn side ≠ key) :
    (without p key).linksOn = p.linksOn := by
  funext k side
  by_cases hk : k = key
  · subst hk
    have gone : k ∉ (without p k).keys := by simp [without, keys]
    rw [linksOn_of_not_mem gone, eq_comm, List.eq_nil_iff_forall_not_mem]
    intro l hl
    obtain ⟨hmem, hend⟩ := h.mem_linksOn.1 hl
    exact free l hmem side hend
  · rw [linksOn, member?_without p hk, linksOn]

theorem remove_eq (h : p.Sound) {m : Member} (hm : m ∈ p.members) :
    ∃ q, p.remove m.key = (q, .ok m) ∧ q.Sound ∧ p.Pruned [m.key] q := by
  have found := member?_of_mem h.keys_nodup hm
  have hin : m.incoming = p.linksOn m.key .input := (linksOn_of_mem h.keys_nodup hm .input).symm
  have hout : m.outgoing = p.linksOn m.key .output := (linksOn_of_mem h.keys_nodup hm .output).symm
  have apart : List.Disjoint m.incoming m.outgoing := by
    intro l hl hl'
    rw [hin, h.mem_linksOn] at hl
    rw [hout, h.mem_linksOn] at hl'
    exact (h.fits l hl.1).1 (hl'.2.trans hl.2.symm)
  have nodup : (m.incoming ++ m.outgoing).Nodup :=
    List.nodup_append'.2 ⟨hin ▸ h.linksOn_nodup _ _, hout ▸ h.linksOn_nodup _ _, apart⟩
  have touches : ∀ l ∈ p.links, l ∈ m.incoming ++ m.outgoing ↔ ¬l.Avoids [m.key] := by
    intro l hl
    rw [List.mem_append, hin, hout, h.mem_linksOn, h.mem_linksOn]
    simp only [Link.Avoids, Link.endOn, hl, true_and, List.mem_singleton]
    tauto
  obtain ⟨q, hq, hsound, hframe, hlinks, hlists⟩ := h.dropAll nodup fun l hl => by
    rw [List.mem_append, hin, hout, h.mem_linksOn, h.mem_linksOn] at hl
    exact hl.elim And.left And.left
  have same : ∀ ls : List Link, (∀ l ∈ ls, l ∈ p.links) →
      (ls.filter fun l => l ∉ m.incoming ++ m.outgoing) = ls.filter (fun l => l.Avoids [m.key]) :=
    fun ls hls => List.filter_congr fun l hl => by simp [touches l (hls l hl)]
  rw [same _ fun _ hl => hl] at hlinks
  have free : ∀ l ∈ q.links, ∀ side, l.endOn side ≠ m.key := by
    intro l hl side
    rw [hlinks, List.mem_filter, decide_eq_true_iff] at hl
    exact List.mem_singleton.not.1 (hl.2.endOn side)
  refine ⟨without q m.key, ?_, hsound.without_sound free, ?_, hlinks, fun k side => ?_⟩
  · rw [Pipeline.remove, found]
    simp only [hq]
    rfl
  · rw [← hframe]
    simp only [frame, without, List.filter_map, List.mem_singleton]
    rfl
  · rw [hsound.linksOn_without free, hlists]
    exact same _ fun l hl => (h.mem_linksOn.1 hl).1

theorem remove (h : p.Sound) (key : String) :
    (p.remove key).1.Sound ∧ p.Thinned (p.remove key).1 := by
  cases hm : p.member? key with
  | none =>
    rw [Pipeline.remove, hm]
    exact ⟨h, .refl p⟩
  | some m =>
    obtain ⟨hmem, rfl⟩ := mem_of_member? hm
    obtain ⟨q, hq, hsound, pruned⟩ := h.remove_eq hmem
    rw [hq]
    exact ⟨hsound, _, pruned.links, pruned.lists⟩

theorem reorder (h : p.Sound) {c : Connector} {links : List Link} (nodup : links.Nodup)
    (hq : p.reorder c links = .ok q) : q.Sound := by
  obtain ⟨hlinks, hframe, hlists⟩ := reorder_effect hq
  obtain ⟨⟨_, inside⟩, _⟩ := reorder_eq_ok.1 hq
  refine h.of_frame hframe (hlinks ▸ .refl _) fun key hk side => ?_
  rw [hlists, hlinks]
  split
  · rename_i hs
    obtain ⟨rfl, rfl⟩ := hs
    exact (rearranged_perm nodup fun l hl => (inside l hl).1).trans (h.listed _ hk _)
  · exact h.listed key hk side

theorem of_perm (h : p.Sound) (hm : q.members ~ p.members) (hl : q.links = p.links) : q.Sound := by
  have same := member?_of_perm h.keys_nodup hm
  refine h.relist (hm.map _) ?_ ?_ (fun m hq => ⟨m, hm.mem_iff.1 hq, rfl, rfl, rfl⟩)
    (hl ▸ .refl _) fun key hk side => ?_
  · funext key slot
    exact outputAt_congr (congrFun same key) slot
  · funext key slot
    exact inputAt_congr (congrFun same key) slot
  · rw [hl, linksOn, same]
    exact h.listed key ((hm.map _).mem_iff.1 hk) side

theorem move (h : p.Sound) {key : String} {position : Int}
    (hq : p.move key position = .ok q) :
    q.Sound ∧ q.links = p.links ∧ q.linksOn = p.linksOn := by
  obtain ⟨hm, hl⟩ := move_perm h.keys_nodup hq
  exact ⟨h.of_perm hm hl, hl, linksOn_of_perm h.keys_nodup hm⟩

theorem give (h : p.Sound) (serial position : Nat) (given : Option String) :
    (p.give serial position given).Sound ∧
      (p.give serial position given).linksOn = p.linksOn := by
  have keys := keys_give p serial position given
  refine ⟨h.relist (.of_eq keys) ?_ ?_ ?_ (.refl _) fun key hk side => ?_,
    linksOn_give p serial position given⟩
  · funext key slot
    rw [outputAt, outputAt, member?_give]
    cases p.member? key with
    | none => rfl
    | some m =>
      by_cases hs : m.serial = serial <;>
        simp [hs, Member.outputs, Member.connectors, Job.slots]
  · funext key slot
    rw [inputAt, inputAt, member?_give]
    cases p.member? key with
    | none => rfl
    | some m =>
      by_cases hs : m.serial = serial <;>
        simp [hs, Member.inputs, Member.connectors, Job.slots]
  · intro m hm
    obtain ⟨n, hn, rfl⟩ := List.mem_map.1 hm
    exact ⟨n, hn, by split <;> exact ⟨rfl, rfl, rfl⟩⟩
  · rw [linksOn_give]
    exact h.listed key (keys_give p serial position given ▸ hk) side

theorem add (h : p.Sound) {s : Stage} {id : Option String} {key : String}
    (hs : ∀ id, s.id = some id → Text.trim id = id)
    (fresh : ∀ m ∈ p.members, m.serial ≠ s.serial) (hq : p.add s id = .ok (key, q)) :
    q.Sound ∧ q.links = p.links ∧ q.linksOn = p.linksOn := by
  obtain ⟨hentry, hnew, _, rfl⟩ := (add_eq_ok fresh).1 hq
  have off : ∀ l ∈ p.links, ∀ side, l.endOn side ≠ key := fun l hl side hk =>
    hnew (hk ▸ (h.fits l hl).mem_keys side)
  have lists := linksOn_newMember s hnew
  refine ⟨⟨?_, h.links_nodup, ?_, ?_, ?_, ?_⟩, rfl, lists⟩
  · rw [keys_newMember]
    exact List.nodup_append'.2 ⟨h.keys_nodup, by simp, by simpa using hnew⟩
  · exact fun l hl => (h.fits l hl).congr fun side =>
      member?_append _ ((h.fits l hl).mem_keys side)
  · intro k hk side
    rw [keys_newMember, List.mem_append, List.mem_singleton] at hk
    rw [lists]
    rcases hk with hk | rfl
    · exact h.listed k hk side
    · have none : p.links.filter (fun l => l.endOn side = k) = [] :=
        List.filter_eq_nil_iff.2 fun l hl => by simpa using off l hl side
      rw [none, linksOn_of_not_mem hnew]
  · intro m hm hid side c hc
    have hstage : c.stage = m.key := (Member.mem_connectors hc).1.trans hid
    rw [linksAt, lists, ← linksAt]
    rcases List.mem_append.1 hm with hm | hm
    · exact h.room m hm hid side c hc
    · have hkey : m.key = key := by simp [List.mem_singleton.1 hm, newMember]
      simp [linksAt, hstage, hkey, linksOn_of_not_mem hnew]
  · intro m hm hb
    rcases List.mem_append.1 hm with hm | hm
    · exact h.known m hm hb
    · obtain rfl := List.mem_singleton.1 hm
      change Text.trim key = key
      rw [hentry]
      exact trim_entryKey p hs id hb

end Sound

end Pipeline

end Sluice
