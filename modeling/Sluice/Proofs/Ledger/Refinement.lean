import Sluice.Proofs.Ledger.Upkeep
import Sluice.Proofs.Pipeline.Joining

/-! Every act on a ledger does what the same change does to a pipeline that it agrees with: it gives
the same answer or fails with the same error, and the two agree again when it is over. -/

namespace Sluice.Ledger

open scoped List

open Pipeline (mem_of_member? mem_keys_of_member? contains_iff)

/-- The act ends with this answer or error, in a ledger that agrees with the pipeline. -/
def Follows {α : Type} (r : EStateM.Result PipelineError Ledger α) (p : Pipeline) :
    Except PipelineError α → Prop
  | .ok a => ∃ s : Ledger, r = .ok a s ∧ s.Agrees p
  | .error e => ∃ s : Ledger, r = .error e s ∧ s.Agrees p

def carried : Option PipelineError → Except PipelineError Unit
  | none => .ok ()
  | some e => .error e

section

variable {α β : Type} {s t : Ledger} {p q : Pipeline} {x : Act α} {a : α} {e : PipelineError}

theorem run_bind_ok (h : x.run s = .ok a t) (f : α → Act β) :
    (x >>= f).run s = (f a).run t := by
  rw [EStateM.run_bind, h]

theorem run_bind_error (h : x.run s = .error e t) (f : α → Act β) :
    (x >>= f).run s = .error e t := by
  rw [EStateM.run_bind, h]

theorem run_ask (query : Ledger → Except PipelineError α) (s : Ledger) :
    (ask query).run s = match query s with
      | .ok a => .ok a s
      | .error e => .error e s := by
  simp only [ask, EStateM.run_bind, EStateM.run_get]
  cases query s <;> rfl

theorem run_ask_bind (query : Ledger → Except PipelineError α) (f : α → Act β) (s : Ledger) :
    (ask query >>= f).run s = match query s with
      | .ok a => (f a).run s
      | .error e => .error e s := by
  rw [EStateM.run_bind, run_ask]
  cases query s <;> rfl

theorem run_check_bind (c : Ledger → Bool) (e : PipelineError) (f : Unit → Act β) (s : Ledger) :
    (check c e >>= f).run s = if c s then (f ()).run s else .error e s := by
  rw [check, run_ask_bind]
  cases c s <;> rfl

theorem Follows.next {f : α → Act β} {z : Except PipelineError β}
    (first : Follows (x.run s) p (.ok a))
    (rest : ∀ t : Ledger, t.Agrees p → Follows ((f a).run t) q z) :
    Follows ((x >>= f).run s) q z := by
  obtain ⟨t, run, agrees⟩ := first
  rw [run_bind_ok run]
  exact rest t agrees

theorem Follows.stop (first : Follows (x.run s) p (.error e)) (f : α → Act β) :
    Follows ((x >>= f).run s) p (.error e) := by
  obtain ⟨t, run, agrees⟩ := first
  exact ⟨t, run_bind_error run f, agrees⟩

end

section

variable {s : Ledger} {key : String}

theorem run_close {side : Side} {links : List Link} (h : look (s.lists side) key = .ok links) :
    (close key side).run s = .ok () (s.setLists side (Table.remove key (s.lists side))) := by
  rw [close, run_ask_bind, h]
  rfl

theorem run_unorder (h : key ∈ s.order) :
    (unorder key).run s = .ok () { s with order := s.order.erase key } := by
  rw [unorder, run_check_bind, if_pos (by simpa using h)]
  rfl

theorem run_pop {e : Entry} (h : look s.entries key = .ok e) :
    (pop key).run s = .ok e { s with entries := Table.remove key s.entries } := by
  rw [pop, run_ask_bind, h]
  rfl

end

namespace Agrees

variable {s : Ledger} {p : Pipeline}

theorem look_list (h : s.Agrees p) (side : Side) (key : String) :
    look (s.lists side) key = match p.member? key with
      | some m => .ok (m.linksOn side)
      | none => .error (.strayEnd key) := by
  rw [look, h.lists]
  cases p.member? key <;> rfl

theorem mem_order (h : s.Agrees p) {key : String} {m : Member} (hm : p.member? key = some m) :
    key ∈ s.order := by
  rw [h.order]
  exact mem_keys_of_member? hm

theorem unlist (h : s.Agrees p) (key : String) (side : Side) (l : Link) :
    Follows ((Ledger.unlist key side l).run s) (p.unlist key side l).1
      (carried (p.unlist key side l).2) := by
  rw [Pipeline.unlist, Ledger.unlist, run_ask_bind, h.look_list]
  cases hm : p.member? key with
  | none => exact ⟨s, rfl, h⟩
  | some m =>
    simp only [run_check_bind]
    by_cases hl : (m.linksOn side).contains l = true
    · rw [if_pos hl, if_pos hl]
      exact ⟨_, rfl, h.setList hm side fun m => (m.linksOn side).erase l⟩
    · rw [if_neg hl, if_neg hl]
      exact ⟨s, rfl, h⟩

theorem drop (h : s.Agrees p) (l : Link) :
    Follows ((Ledger.drop l).run s) (p.drop l).1 (carried (p.drop l).2) := by
  rw [Pipeline.drop, Ledger.drop]
  by_cases hl : p.links.contains l = true
  · have struck : (strike l).run s = .ok () { s with links := p.links.erase l } := by
      rw [strike, run_check_bind, h.links, if_pos hl, ← h.links]
      rfl
    rw [if_pos hl, run_bind_ok struck]
    have first := (h.links_changed (p.links.erase l)).unlist l.source .output l
    rcases hu : ({ p with links := p.links.erase l } : Pipeline).unlist l.source .output l
      with ⟨q, _ | e⟩ <;> rw [hu] at first
    · exact first.next fun t ht => ht.unlist l.target .input l
    · exact first.stop _
  · have stays : (strike l).run s = .error .unlistedLink s := by
      rw [strike, run_check_bind, h.links, if_neg hl]
    rw [if_neg hl, run_bind_error stays]
    exact ⟨s, rfl, h⟩

theorem dropAll (h : s.Agrees p) (ls : List Link) :
    Follows ((Ledger.dropAll ls).run s) (p.dropAll ls).1 (carried (p.dropAll ls).2) := by
  induction ls generalizing s p with
  | nil => exact ⟨s, rfl, h⟩
  | cons l r ih =>
    rw [Pipeline.dropAll, Ledger.dropAll]
    have first := h.drop l
    rcases hd : p.drop l with ⟨q, _ | e⟩ <;> rw [hd] at first
    · exact first.next fun t ht => ih ht
    · exact first.stop _

theorem disconnect (h : s.Agrees p) (l : Link) :
    Follows ((Ledger.disconnect l).run s) (p.disconnect l).1 (carried (p.disconnect l).2) := by
  rw [Pipeline.disconnect, Ledger.disconnect, run_check_bind, h.links]
  by_cases hl : p.links.contains l = true
  · rw [if_pos hl, if_pos hl]
    exact h.drop l
  · rw [if_neg hl, if_neg hl]
    exact ⟨s, rfl, h⟩

theorem unlink (h : s.Agrees p) (c : Connector) :
    Follows ((Ledger.unlink c).run s) (p.unlink c).1 (p.unlink c).2 := by
  have doomed : (p.linksOn c.stage c.side).filter (fun l => l.slotOn c.side == c.slot) =
      p.linksAt c := rfl
  rw [Ledger.unlink, EStateM.run_bind, EStateM.run_get, Pipeline.unlink, doomed]
  simp only [h.holds]
  by_cases hk : c.stage ∈ p.keys
  · rw [if_pos (contains_iff.2 hk), run_ask_bind, h.linksAt hk]
    have first := h.dropAll (p.linksAt c)
    rcases hd : p.dropAll (p.linksAt c) with ⟨q, _ | e⟩ <;> rw [hd] at first
    · exact first.next fun t ht => ⟨t, rfl, ht⟩
    · exact first.stop _
  · have none : p.linksAt c = [] := by
      rw [Pipeline.linksAt, Pipeline.linksOn_of_not_mem hk, List.filter_nil]
    rw [if_neg (contains_iff.not.2 hk), none]
    exact ⟨s, rfl, h⟩

theorem leave (h : s.Agrees p) {key : String} {m : Member} (hm : p.member? key = some m) :
    Follows ((Ledger.leave key).run s)
      { p with members := p.members.filter fun other => other.key ≠ key } (.ok m.entry) := by
  have listed : ∀ side, look (s.lists side) key = .ok (m.linksOn side) := fun side => by
    rw [h.look_list, hm]
  let first := s.setLists .input (Table.remove key s.incoming)
  let second := first.setLists .output (Table.remove key s.outgoing)
  have run₁ : (close key .input).run s = .ok () first := run_close (listed .input)
  have run₂ : (close key .output).run first = .ok () second := run_close (listed .output)
  have run₃ : (unorder key).run second = .ok () { second with order := s.order.erase key } :=
    run_unorder (h.mem_order hm)
  have run₄ : (pop key).run { second with order := s.order.erase key } = .ok m.entry _ :=
    run_pop (h.look_entries hm)
  rw [Ledger.leave, run_bind_ok run₁, run_bind_ok run₂, run_bind_ok run₃, run₄]
  exact ⟨_, rfl, h.member_left key⟩

theorem remove (h : s.Agrees p) (key : String) :
    Follows ((Ledger.remove key).run s) (p.remove key).1
      ((p.remove key).2.map Member.entry) := by
  rw [Pipeline.remove, Ledger.remove, run_check_bind, h.holds, Pipeline.contains]
  cases hm : p.member? key with
  | none => exact ⟨s, rfl, h⟩
  | some m =>
    have listed : ∀ side, look (s.lists side) key = .ok (m.linksOn side) := fun side => by
      rw [h.look_list, hm]
    have incoming : look s.incoming key = .ok m.incoming := listed .input
    have outgoing : look s.outgoing key = .ok m.outgoing := listed .output
    rw [Option.isSome_some, if_pos rfl, run_ask_bind, incoming]
    simp only [run_ask_bind, outgoing]
    have first := h.dropAll (m.incoming ++ m.outgoing)
    have frame := (Pipeline.shrinks_dropAll p (m.incoming ++ m.outgoing)).frame
    rcases hd : p.dropAll (m.incoming ++ m.outgoing) with ⟨q, _ | e⟩ <;> rw [hd] at first frame
    · refine first.next fun t ht => ?_
      have same := Pipeline.bare_eq_of_frame frame key
      rw [hm] at same
      obtain ⟨n, hn, hb⟩ := Option.map_eq_some_iff.1 same
      have entry : n.entry = m.entry := (congrArg Member.entry hb :)
      have left := ht.leave hn
      rwa [entry] at left
    · exact first.stop _

theorem move (h : s.Agrees p) (key : String) (position : Int) :
    Follows ((Ledger.move key position).run s) (p.settle (p.move key position))
      ((p.move key position).map fun _ => ()) := by
  rw [Ledger.move, run_check_bind, h.holds, Pipeline.contains, Pipeline.move, Pipeline.find]
  cases hm : p.member? key with
  | none => exact ⟨s, rfl, h⟩
  | some m =>
    rw [Option.isSome_some, if_pos rfl, run_bind_ok (run_unorder (h.mem_order hm))]
    exact ⟨_, rfl, h.member_moved hm position⟩

theorem list (h : s.Agrees p) {key : String} (hk : key ∈ p.keys) (side : Side) (l : Link) :
    Follows ((Ledger.list key side l).run s)
      (p.modify key fun m => m.setLinksOn side (m.linksOn side ++ [l])) (.ok ()) := by
  rw [Ledger.list, run_ask_bind, h.look_list]
  cases hm : p.member? key with
  | none => exact absurd hk (Pipeline.member?_eq_none_iff.1 hm)
  | some m => exact ⟨_, rfl, h.setList hm side fun m => m.linksOn side ++ [l]⟩

theorem connect (h : s.Agrees p) (source target : String) (i j : Option Int) :
    Follows ((Ledger.connect source target i j).run s)
      (p.settle ((p.connect source target i j).map Prod.snd))
      ((p.connect source target i j).map Prod.fst) := by
  rw [Ledger.connect, run_ask_bind, h.allowedLink, Pipeline.connect]
  cases allowed : p.allowedLink source target i j with
  | error e => exact ⟨s, rfl, h⟩
  | ok l =>
    obtain ⟨c, d, ha⟩ := Pipeline.allowed_of_ok allowed
    have ends := ha.fits.mem_keys
    have recorded : Agrees { s with links := s.links ++ [l] }
        { p with links := p.links ++ [l] } := h.links ▸ h.links_changed (s.links ++ [l])
    have sourced := recorded.list (ends .output) .output l
    refine sourced.next fun t ht => ?_
    refine (ht.list ?_ .input l).next fun u hu => ⟨u, rfl, hu⟩
    rw [Pipeline.keys_modify _ _ _ fun m => m.key_setLinksOn .output _]
    exact ends .input

theorem reorder (h : s.Agrees p) (c : Connector) (links : List Link) :
    Follows ((Ledger.reorder c links).run s) (p.settle (p.reorder c links))
      ((p.reorder c links).map fun _ => ()) := by
  rw [Ledger.reorder, run_check_bind, h.holds, Pipeline.contains, Pipeline.reorder, Pipeline.find]
  cases hm : p.member? c.stage with
  | none => exact ⟨s, rfl, h⟩
  | some m =>
    rw [Option.isSome_some, if_pos rfl, run_ask_bind, h.look_list, hm]
    simp only [pure_bind, run_ask_bind]
    cases links.mapM (Pipeline.positionOf c (m.linksOn c.side)) with
    | error e => exact ⟨s, rfl, h⟩
    | ok positions => exact ⟨_, rfl, h.setList hm c.side fun _ =>
        Pipeline.place (positions.mergeSort (· ≤ ·)) links (m.linksOn c.side)⟩

theorem clear (h : s.Agrees p) : Follows (Ledger.clear.run s) p.clear (.ok ()) :=
  ⟨_, rfl, h.name, rfl, List.nodup_nil, rfl, fun _ => rfl, .nil,
    fun side _ => by cases side <;> rfl, fun side => by cases side <;> exact .nil⟩

theorem give (h : s.Agrees p) (serial position : Nat) (given : Option String) :
    Follows ((Ledger.give serial position given).run s) (p.give serial position given) (.ok ()) :=
  ⟨_, rfl, h.modifyJob serial (fun _ => rfl) (fun _ => rfl) fun _ side => by cases side <;> rfl⟩

theorem add (h : s.Agrees p) (stage : Stage) (id : Option String) :
    Follows ((Ledger.add stage id).run s) (p.settle ((p.add stage id).map Prod.snd))
      ((p.add stage id).map Prod.fst) := by
  rw [Ledger.add, EStateM.run_bind, EStateM.run_get, Pipeline.add]
  simp only [h.entryKey, run_check_bind, h.holds]
  by_cases taken : p.contains (p.entryKey stage id) = true
  · simp only [taken]
    exact ⟨s, rfl, h⟩
  · simp only [taken, run_ask_bind]
    cases hid : Stage.idOf (p.entryKey stage id) with
    | error e => exact ⟨s, rfl, h⟩
    | ok newId =>
      have renamed := h.modifyJob stage.serial (f := fun e => { e with id := newId })
        (g := fun m => { m with id := newId }) (fun _ => rfl) (fun _ => rfl)
        fun _ side => by cases side <;> rfl
      have fresh : p.entryKey stage id ∉
          (p.modifyJob stage.serial fun m => { m with id := newId }).keys := by
        rw [Pipeline.keys_modifyJob]
        · exact fun hk => taken (contains_iff.2 hk)
        · exact fun _ => rfl
      refine ⟨_, rfl, renamed.member_added (m := { stage.toJob with
        key := p.entryKey stage id, id := newId, incoming := [], outgoing := [] }) fresh ?_⟩
      exact fun side => by cases side <;> rfl

end Agrees

end Sluice.Ledger
