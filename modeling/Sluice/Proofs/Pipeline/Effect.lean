import Mathlib.Data.List.Perm.Subperm
import Sluice.Proofs.Pipeline.Members
import Sluice.Proofs.Steps

/-! What each edit does to the table of links, to the lists of the members and to the frame. -/

namespace Sluice.Pipeline

open scoped List

theorem modifyJob_of_fresh {p : Pipeline} {serial : Nat} (h : ∀ m ∈ p.members, m.serial ≠ serial)
    (f : Member → Member) : p.modifyJob serial f = p := by
  have : (p.members.map fun m => if m.serial = serial then f m else m) = p.members :=
    (List.map_congr_left fun m hm => if_neg (h m hm)).trans (List.map_id _)
  rw [modifyJob, this]

def newMember (s : Stage) (key : String) : Member :=
  { s.toJob with key := key, id := Text.trim key, incoming := [], outgoing := [] }

theorem idOf_eq_ok {key id : String} :
    Stage.idOf key = .ok id ↔ Text.isVoid key = false ∧ Text.trim key = id := by
  unfold Stage.idOf
  cases Text.isVoid key <;> simp

theorem add_eq_ok {p q : Pipeline} {s : Stage} {id : Option String} {key : String}
    (fresh : ∀ m ∈ p.members, m.serial ≠ s.serial) :
    p.add s id = .ok (key, q) ↔ key = p.entryKey s id ∧ key ∉ p.keys ∧ Text.isVoid key = false ∧
      q = { p with members := p.members ++ [newMember s key] } := by
  simp only [add, check_eq_ok, contains_iff]
  constructor
  · rintro ⟨hkey, h⟩
    cases hid : Stage.idOf (p.entryKey s id) with
    | error e => simp [hid] at h
    | ok newId =>
      simp only [hid, modifyJob_of_fresh fresh, pure_eq_ok, Prod.mk.injEq] at h
      obtain ⟨rfl, rfl⟩ := h
      obtain ⟨hvoid, rfl⟩ := idOf_eq_ok.1 hid
      exact ⟨rfl, hkey, hvoid, rfl⟩
  · rintro ⟨rfl, hkey, hvoid, rfl⟩
    refine ⟨hkey, ?_⟩
    simp only [idOf_eq_ok.2 ⟨hvoid, rfl⟩, modifyJob_of_fresh fresh]
    rfl

theorem keys_newMember (p : Pipeline) (s : Stage) (key : String) :
    ({ p with members := p.members ++ [newMember s key] } : Pipeline).keys = p.keys ++ [key] := by
  simp [keys, newMember]

theorem member?_append {p : Pipeline} (m : Member) {key : String} (h : key ∈ p.keys) :
    ({ p with members := p.members ++ [m] } : Pipeline).member? key = p.member? key := by
  have : (p.member? key).isSome := contains_iff.2 h
  rw [member?, List.find?_append]
  exact Option.or_of_isSome this

theorem member?_newMember {p : Pipeline} (s : Stage) {key : String} (h : key ∉ p.keys) :
    ({ p with members := p.members ++ [newMember s key] } : Pipeline).member? key =
      some (newMember s key) := by
  have : p.members.find? (fun m => m.key == key) = none := member?_eq_none_iff.2 h
  simp [member?, List.find?_append, this, newMember]

theorem linksOn_newMember {p : Pipeline} (s : Stage) {key : String} (h : key ∉ p.keys) :
    ({ p with members := p.members ++ [newMember s key] } : Pipeline).linksOn = p.linksOn := by
  funext k side
  by_cases hk : k ∈ p.keys
  · rw [linksOn, member?_append _ hk, linksOn]
  · rw [linksOn_of_not_mem hk]
    by_cases hkey : k = key
    · subst hkey
      rw [linksOn, member?_newMember s h]
      cases side <;> rfl
    · exact linksOn_of_not_mem (by simp [keys_newMember, hk, hkey]) side

@[simp] theorem links_link (p : Pipeline) (l : Link) : (p.link l).links = p.links ++ [l] := rfl

theorem link_eq (p : Pipeline) (l : Link) :
    p.link l =
      (({ p with links := p.links ++ [l] }.modify l.source fun m =>
        m.setLinksOn .output (m.linksOn .output ++ [l])).modify l.target fun m =>
          m.setLinksOn .input (m.linksOn .input ++ [l])) := rfl

theorem frame_link (p : Pipeline) (l : Link) : (p.link l).frame = p.frame := by
  rw [link_eq, frame_modify _ _ fun m => m.bare_setLinksOn .input _,
    frame_modify _ _ fun m => m.bare_setLinksOn .output _]
  rfl

theorem elim_linksOn (p : Pipeline) (key : String) (side : Side) (l : Link)
    (h : key ∈ p.keys) :
    (p.member? key).elim [] (fun m => m.linksOn side ++ [l]) = p.linksOn key side ++ [l] := by
  cases hm : p.member? key with
  | none => exact absurd h (member?_eq_none_iff.1 hm)
  | some m => simp [linksOn, hm]

theorem linksOn_link {p : Pipeline} {l : Link} (hs : l.source ∈ p.keys) (ht : l.target ∈ p.keys)
    (key : String) (side : Side) :
    (p.link l).linksOn key side =
      if l.endOn side = key then p.linksOn key side ++ [l] else p.linksOn key side := by
  have frame : ({ p with links := p.links ++ [l] }.modify l.source fun m =>
      m.setLinksOn .output (m.linksOn .output ++ [l])).frame = p.frame :=
    frame_modify _ _ fun m => m.bare_setLinksOn .output _
  rw [link_eq, linksOn_modify_setLinksOn, elim_linksOn, linksOn_modify_setLinksOn,
    linksOn_modify_setLinksOn, elim_linksOn]
  · change (if key = l.target ∧ side = .input then _ else
      if key = l.source ∧ side = .output then p.linksOn l.source .output ++ [l]
        else p.linksOn key side) = _
    cases side with
    | input =>
      by_cases h : l.target = key
      · subst h
        simp [Link.endOn, linksOn, member?]
      · simp [Link.endOn, h, Ne.symm h]
    | output =>
      by_cases h : l.source = key
      · subst h
        simp [Link.endOn]
      · simp [Link.endOn, h, Ne.symm h]
  · exact hs
  · rw [keys_eq_of_frame frame]
    exact ht

theorem erase_eq_filter {α : Type} [DecidableEq α] {as : List α} (h : as.Nodup) (a : α) :
    as.erase a = as.filter fun b => b ≠ a := by
  rw [h.erase_eq_filter]
  exact List.filter_congr fun b _ => by by_cases hb : b = a <;> simp [hb]

theorem unlist_eq {p : Pipeline} {key : String} {side : Side} {l : Link}
    (h : l ∈ p.linksOn key side) :
    ∃ q, p.unlist key side l = (q, none) ∧ q.links = p.links ∧ q.frame = p.frame ∧
      ∀ other which, q.linksOn other which =
        if other = key ∧ which = side then (p.linksOn key side).erase l
        else p.linksOn other which := by
  cases hm : p.member? key with
  | none => simp [linksOn, hm] at h
  | some m =>
    simp only [linksOn, hm] at h
    refine ⟨p.modify key fun m => m.setLinksOn side ((m.linksOn side).erase l), ?_, rfl, ?_, ?_⟩
    · simp [unlist, hm, h]
    · exact frame_modify p key fun m => m.bare_setLinksOn side _
    · intro other which
      rw [linksOn_modify_setLinksOn]
      simp [linksOn, hm]

theorem drop_eq {p : Pipeline} {l : Link} (h : l ∈ p.links)
    (hl : ∀ side, l ∈ p.linksOn (l.endOn side) side) :
    ∃ q, p.drop l = (q, none) ∧ q.links = p.links.erase l ∧ q.frame = p.frame ∧
      ∀ key side, q.linksOn key side =
        if l.endOn side = key then (p.linksOn key side).erase l else p.linksOn key side := by
  have hc : p.links.contains l = true := by simpa using h
  have hs : l ∈ { p with links := p.links.erase l }.linksOn l.source .output := hl .output
  obtain ⟨q, hq, hlinks, hframe, hlists⟩ := unlist_eq hs
  have ht : l ∈ q.linksOn l.target .input := by
    rw [hlists, linksOn_table, if_neg (by simp)]
    exact hl .input
  obtain ⟨r, hr, hlinks', hframe', hlists'⟩ := unlist_eq ht
  refine ⟨r, ?_, hlinks'.trans hlinks, hframe'.trans hframe, fun key side => ?_⟩
  · rw [drop, if_pos hc, hq]
    exact hr
  · rw [hlists', hlists, hlists]
    cases side with
    | input =>
      by_cases hk : l.target = key
      · subst hk
        simp [Link.endOn]
      · simp [Link.endOn, hk, Ne.symm hk]
    | output =>
      by_cases hk : l.source = key
      · subst hk
        simp [Link.endOn]
      · simp [Link.endOn, hk, Ne.symm hk]

structure Shrinks (p q : Pipeline) : Prop where
  frame : q.frame = p.frame
  lists : ∀ key side, q.linksOn key side ⊆ p.linksOn key side

theorem Shrinks.refl (p : Pipeline) : p.Shrinks p :=
  ⟨rfl, fun _ _ => List.Subset.refl _⟩

theorem Shrinks.trans {p q r : Pipeline} (h : p.Shrinks q) (h' : q.Shrinks r) : p.Shrinks r :=
  ⟨h'.frame.trans h.frame, fun key side =>
    List.Subset.trans (h'.lists key side) (h.lists key side)⟩

theorem shrinks_unlist (p : Pipeline) (key : String) (side : Side) (l : Link) :
    p.Shrinks (p.unlist key side l).1 := by
  unfold unlist
  split
  · exact .refl p
  · rename_i m hm
    split
    · refine ⟨frame_modify p key fun m => m.bare_setLinksOn side _, fun other which => ?_⟩
      rw [linksOn_modify_setLinksOn, hm]
      split
      · rename_i h
        rw [h.1, h.2, linksOn, hm]
        exact List.erase_subset
      · exact List.Subset.refl _
    · exact .refl p

theorem shrinks_drop (p : Pipeline) (l : Link) : p.Shrinks (p.drop l).1 := by
  unfold drop
  split
  · have first : p.Shrinks ({ p with links := p.links.erase l }.unlist l.source .output l).1 := by
      obtain ⟨frame, lists⟩ := shrinks_unlist { p with links := p.links.erase l } l.source .output l
      exact ⟨frame, lists⟩
    split
    · rename_i q e hq
      rwa [hq] at first
    · rename_i q hq
      rw [hq] at first
      exact first.trans (shrinks_unlist q l.target .input l)
  · exact .refl p

theorem shrinks_dropAll (p : Pipeline) (ls : List Link) : p.Shrinks (p.dropAll ls).1 := by
  induction ls generalizing p with
  | nil => exact .refl p
  | cons l r ih =>
    have first := shrinks_drop p l
    unfold dropAll
    split
    · rename_i q hq
      rw [hq] at first
      exact first.trans (ih q)
    · rename_i q e hq
      rwa [hq] at first

theorem shrinks_disconnect (p : Pipeline) (l : Link) : p.Shrinks (p.disconnect l).1 := by
  unfold disconnect
  split
  · exact shrinks_drop p l
  · exact .refl p

theorem shrinks_unlink (p : Pipeline) (c : Connector) : p.Shrinks (p.unlink c).1 := by
  have dropped := shrinks_dropAll p
    ((p.linksOn c.stage c.side).filter fun l => l.slotOn c.side == c.slot)
  simp only [unlink]
  split <;> (rename_i q hq; rwa [hq] at dropped)

theorem remove_cases (p : Pipeline) (key : String) :
    ∃ q, p.Shrinks q ∧ ((p.remove key).1 = q ∨
      (p.remove key).1 = { q with members := q.members.filter fun m => m.key ≠ key }) := by
  unfold remove
  split
  · exact ⟨p, .refl p, .inl rfl⟩
  · rename_i m _
    have dropped := shrinks_dropAll p (m.incoming ++ m.outgoing)
    split
    · rename_i q e hq
      rw [hq] at dropped
      exact ⟨q, dropped, .inl rfl⟩
    · rename_i q hq
      rw [hq] at dropped
      exact ⟨q, dropped, .inr rfl⟩

theorem member?_filter (p : Pipeline) {key other : String} (h : other ≠ key) :
    ({ p with members := p.members.filter fun m => m.key ≠ key } : Pipeline).member? other =
      p.member? other := by
  simp only [member?, List.find?_filter]
  congr 1
  funext m
  by_cases hm : m.key = other <;> simp [hm, h]

theorem member?_of_perm {p q : Pipeline} (hk : p.keys.Nodup) (h : q.members ~ p.members) :
    q.member? = p.member? := by
  funext key
  have hq : q.keys.Nodup := (h.map _).nodup_iff.2 hk
  refine Option.ext fun m => ?_
  rw [member?_eq_some_iff hq, member?_eq_some_iff hk, h.mem_iff]

theorem linksOn_of_perm {p q : Pipeline} (hk : p.keys.Nodup) (h : q.members ~ p.members) :
    q.linksOn = p.linksOn := by
  funext key side
  rw [linksOn, member?_of_perm hk h, linksOn]

theorem move_perm {p q : Pipeline} (hk : p.keys.Nodup) {key : String} {position : Int}
    (hq : p.move key position = .ok q) : q.members ~ p.members ∧ q.links = p.links := by
  simp only [move, bind_eq_ok, find_eq_ok_iff, pure_eq_ok] at hq
  obtain ⟨m, hm, rfl⟩ := hq
  obtain ⟨hmem, rfl⟩ := mem_of_member? hm
  refine ⟨?_, rfl⟩
  refine (List.perm_insertIdx _ _ (Nat.min_le_right _ _)).trans ?_
  have alone : (p.members.filter fun n => n.key = m.key) = [m] := by
    have hone : ∀ n ∈ p.members.filter fun n => n.key = m.key, n = m := by
      intro n hn
      obtain ⟨hn, hkey⟩ := List.mem_filter.1 hn
      exact List.inj_on_of_nodup_map hk hn hmem (by simpa using hkey)
    have hnodup : (p.members.filter fun n => n.key = m.key).Nodup :=
      (List.Nodup.of_map _ hk).filter _
    refine List.perm_singleton.1 ((List.perm_ext_iff_of_nodup hnodup (by simp)).2 fun n => ?_)
    constructor
    · intro hn
      simp [hone n hn]
    · intro hn
      rw [List.mem_singleton.1 hn]
      simp [hmem]
  have both := List.filter_append_perm (fun n : Member => n.key = m.key) p.members
  rw [alone] at both
  simpa using both

section

variable (p : Pipeline) (serial position : Nat) (given : Option String)

theorem member?_give (key : String) :
    (p.give serial position given).member? key = (p.member? key).map fun m =>
      if m.serial = serial then
        { m with arguments := m.arguments.modify position fun a => { a with given := given } }
      else m :=
  member?_modifyJob p serial key fun _ => rfl

@[simp] theorem keys_give : (p.give serial position given).keys = p.keys :=
  keys_modifyJob p serial fun _ => rfl

@[simp] theorem linksOn_give : (p.give serial position given).linksOn = p.linksOn := by
  funext key side
  rw [linksOn, linksOn, member?_give]
  cases p.member? key with
  | none => rfl
  | some m => by_cases hs : m.serial = serial <;> cases side <;> simp [hs, Member.linksOn]

end

end Sluice.Pipeline
