import Sluice.Proofs.Pipeline.Joining

/-! The single changes that edits are made of. An edit makes its checks, which plan the changes, and
then carries these out one by one. A change fails when what it is about is not there; in a sound
pipeline no change that is planned fails, since each link stands once in the table and once in the
list of each of its two ends, which are different members. -/

namespace Sluice.Pipeline

/-- One change to a pipeline: to the ids of the views of a job, to the order of the members, to the
table of links, or to the list that a member keeps of its links. -/
inductive Change
  | rename : (serial : Nat) → (id : String) → Change
  | insert : (position : Nat) → Member → Change
  | leave : (key : String) → Change
  | record : Link → Change
  | strike : Link → Change
  | list : (key : String) → Side → Link → Change
  | unlist : (key : String) → Side → Link → Change
  | relist : (key : String) → Side → (position : Nat) → Link → Change
  | clear : Change
  | give : (serial : Nat) → (position : Nat) → (given : Option String) → Change

def holder (p : Pipeline) (key : String) : Except PipelineError Member :=
  match p.member? key with
  | some m => pure m
  | none => throw (.strayEnd key)

def Change.run (p : Pipeline) : Change → Except PipelineError Pipeline
  | .rename serial id => pure (p.modifyJob serial fun m => { m with id := id })
  | .insert position m =>
    pure { p with members := p.members.insertIdx (min position p.members.length) m }
  | .leave key =>
    if p.contains key then
      pure { p with members := p.members.filter fun m => m.key ≠ key }
    else throw (.strayEnd key)
  | .record l => pure { p with links := p.links ++ [l] }
  | .strike l =>
    if p.links.contains l then pure { p with links := p.links.erase l } else throw .unlistedLink
  | .list key side l => do
    let _ ← p.holder key
    pure (p.modify key fun m => m.setLinksOn side (m.linksOn side ++ [l]))
  | .unlist key side l =>
    match p.unlist key side l with
    | (q, none) => pure q
    | (_, some e) => throw e
  | .relist key side position l => do
    let m ← p.holder key
    if position < (m.linksOn side).length then
      pure (p.modify key fun n => n.setLinksOn side ((m.linksOn side).set position l))
    else throw .unlistedLink
  | .clear => pure p.clear
  | .give serial position given => pure (p.give serial position given)

def joining (l : Link) : List Change :=
  [.record l, .list l.source .output l, .list l.target .input l]

def dropping (l : Link) : List Change :=
  [.strike l, .unlist l.source .output l, .unlist l.target .input l]

def Edit.plan (p : Pipeline) : Edit → Except PipelineError (List Change)
  | .add s id => do
    let key := p.entryKey s id
    if p.contains key then throw (.taken key)
    match Stage.idOf key with
    | .error e => throw (.badStage e)
    | .ok newId =>
      pure [.rename s.serial newId, .insert p.members.length
        { s.toJob with key := key, id := newId, incoming := [], outgoing := [] }]
  | .remove key => do
    let m ← p.find key
    pure ((m.incoming ++ m.outgoing).flatMap dropping ++ [.leave key])
  | .move key position => do
    let m ← p.find key
    pure [.leave key, .insert position.toNat m]
  | .connect source target i j => do
    let l ← p.allowedLink source target i j
    pure (joining l)
  | .disconnect l => if p.links.contains l then pure (dropping l) else throw (.linkNotFound l)
  | .unlink c => pure ((p.linksAt c).flatMap dropping)
  | .reorder c links => do
    let m ← p.find c.stage
    let positions ← links.mapM (positionOf c (m.linksOn c.side))
    pure (List.zipWith (.relist c.stage c.side) (positions.mergeSort (· ≤ ·)) links)
  | .clear => pure [.clear]
  | .give serial position given => pure [.give serial position given]

def Edit.outcome (p : Pipeline) : Edit → Pipeline × Option PipelineError
  | .add s id => settled p Prod.snd (p.add s id)
  | .remove key => ((p.remove key).1, failure? (p.remove key).2)
  | .move key position => settled p id (p.move key position)
  | .connect source target i j => settled p Prod.snd (p.connect source target i j)
  | .disconnect l => p.disconnect l
  | .unlink c => ((p.unlink c).1, failure? (p.unlink c).2)
  | .reorder c links => settled p id (p.reorder c links)
  | .clear => (p.clear, none)
  | .give serial position given => (p.give serial position given, none)

variable {p q : Pipeline} {l : Link}

theorem run_unlist {key : String} {side : Side} :
    (Change.unlist key side l).run p = .ok q ↔ p.unlist key side l = (q, none) := by
  rcases h : p.unlist key side l with ⟨r, _ | e⟩ <;> simp [Change.run, h]

theorem run_dropping (h : p.drop l = (q, none)) : (dropping l).foldlM Change.run p = .ok q := by
  unfold drop at h
  split at h
  · rename_i hl
    split at h
    · cases h
    · rename_i r hr
      simp only [dropping, List.foldlM_cons, List.foldlM_nil, bind_eq_ok, pure_eq_ok]
      exact ⟨_, by simp only [Change.run, if_pos hl, pure_eq_ok], r, run_unlist.2 hr, q,
        run_unlist.2 h, rfl⟩
  · cases h

theorem run_droppings {ls : List Link} (h : p.dropAll ls = (q, none)) :
    (ls.flatMap dropping).foldlM Change.run p = .ok q := by
  induction ls generalizing p with
  | nil => exact congrArg Except.ok (Prod.mk.inj h).1
  | cons l r ih =>
    rw [dropAll] at h
    split at h
    · rename_i s hs
      rw [List.flatMap_cons, List.foldlM_append, run_dropping hs]
      exact ih h
    · cases h

theorem holder_of_mem {key : String} (h : key ∈ p.keys) : ∃ m, p.holder key = .ok m := by
  unfold holder
  cases hm : p.member? key with
  | none => exact absurd h (member?_eq_none_iff.1 hm)
  | some m => exact ⟨m, rfl⟩

theorem run_list {key : String} (h : key ∈ p.keys) (side : Side) (l : Link) :
    (Change.list key side l).run p =
      .ok (p.modify key fun m => m.setLinksOn side (m.linksOn side ++ [l])) := by
  obtain ⟨m, hm⟩ := holder_of_mem h
  rw [Change.run, hm]
  rfl

theorem run_joining (ends : ∀ side, l.endOn side ∈ p.keys) :
    (joining l).foldlM Change.run p = .ok (p.link l) := by
  have listed := keys_modify { p with links := p.links ++ [l] } l.source
    (fun m => m.setLinksOn .output (m.linksOn .output ++ [l])) fun m => m.key_setLinksOn .output _
  have source : l.source ∈ ({ p with links := p.links ++ [l] } : Pipeline).keys := ends .output
  rw [joining, List.foldlM_cons, Change.run, pure_bind, List.foldlM_cons, run_list source, ok_bind,
    List.foldlM_cons, run_list (listed ▸ ends .input), ok_bind]
  rfl

def withList (p : Pipeline) (key : String) (side : Side) (links : List Link) : Pipeline :=
  p.modify key fun m => m.setLinksOn side links

theorem holder_withList {key : String} {m : Member} (h : p.member? key = some m) (side : Side)
    (links : List Link) : (p.withList key side links).holder key =
      .ok (m.setLinksOn side links) := by
  rw [holder, withList, member?_modify p key key fun m => m.key_setLinksOn side links, h,
    Option.map_some, if_pos (mem_of_member? h).2]
  rfl

theorem withList_withList (p : Pipeline) (key : String) (side : Side) (links more : List Link) :
    (p.withList key side links).withList key side more = p.withList key side more := by
  simp only [withList, modify, List.map_map]
  congr 1
  refine List.map_congr_left fun m _ => ?_
  by_cases hm : m.key = key <;> cases side <;> simp [hm, Member.setLinksOn]

theorem run_relist {key : String} {m : Member} (h : p.member? key = some m) {side : Side}
    {links : List Link} {i : Nat} (hi : i < links.length) (l : Link) :
    (Change.relist key side i l).run (p.withList key side links) =
      .ok (p.withList key side (links.set i l)) := by
  rw [Change.run, holder_withList h, ok_bind, Member.linksOn_setLinksOn, if_pos rfl, if_pos hi]
  exact congrArg Except.ok (withList_withList p key side links (links.set i l))

theorem run_relists {key : String} {m : Member} (h : p.member? key = some m) (side : Side)
    {positions : List Nat} (ls : List Link) {links : List Link}
    (inside : ∀ i ∈ positions, i < links.length) :
    (List.zipWith (Change.relist key side) positions ls).foldlM Change.run
      (p.withList key side links) = .ok (p.withList key side (place positions ls links)) := by
  induction positions generalizing ls links with
  | nil => rfl
  | cons i is ih =>
    cases ls with
    | nil => rfl
    | cons l r =>
      obtain ⟨hi, rest⟩ := List.forall_mem_cons.1 inside
      rw [List.zipWith_cons_cons, List.foldlM_cons, run_relist h hi, ok_bind]
      exact ih r (by simpa using rest)

theorem withList_linksOn {key : String} {m : Member} (h : p.keys.Nodup)
    (found : p.member? key = some m) (side : Side) :
    p.withList key side (m.linksOn side) = p := by
  have same : p.members.map (fun n => if n.key = key then n.setLinksOn side (m.linksOn side)
      else n) = p.members := by
    refine (List.map_congr_left fun n hn => ?_).trans (List.map_id _)
    split
    · rename_i hkey
      have : n = m := Option.some.inj ((member?_eq_some_iff h).2 ⟨hn, hkey⟩ ▸ found)
      subst this
      cases side <;> rfl
    · rfl
  rw [withList, modify, same]

theorem run_leave {key : String} (h : key ∈ p.keys) : (Change.leave key).run p =
    .ok { p with members := p.members.filter fun m => m.key ≠ key } :=
  if_pos (contains_iff.2 h)

theorem planned_add (p : Pipeline) (s : Stage) (id : Option String) :
    CarriedOut Change.run p (Edit.plan p (.add s id)) (Edit.outcome p (.add s id)) := by
  simp only [Edit.plan, Edit.outcome, add]
  by_cases taken : p.contains (p.entryKey s id) = true
  · simp only [taken, if_true]
    exact .refused _
  · simp only [taken]
    cases Stage.idOf (p.entryKey s id) with
    | error e => exact .refused _
    | ok newId =>
      refine .done ?_
      have same : (p.modifyJob s.serial fun m => { m with id := newId }).members.length =
          p.members.length := List.length_map _
      simp only [List.foldlM_cons, List.foldlM_nil, Change.run, pure_bind, ← same, Nat.min_self,
        List.insertIdx_length_self]
      rfl

theorem planned_move (p : Pipeline) (key : String) (position : Int) :
    CarriedOut Change.run p (Edit.plan p (.move key position))
      (Edit.outcome p (.move key position)) := by
  simp only [Edit.plan, Edit.outcome, move]
  cases found : p.find key with
  | error e => exact .refused e
  | ok m =>
    refine .done ?_
    rw [List.foldlM_cons, run_leave (mem_keys_of_member? (find_eq_ok_iff.1 found)), ok_bind]
    rfl

theorem planned_connect (p : Pipeline) (source target : String) (i j : Option Int) :
    CarriedOut Change.run p (Edit.plan p (.connect source target i j))
      (Edit.outcome p (.connect source target i j)) := by
  simp only [Edit.plan, Edit.outcome, connect]
  cases allowed : p.allowedLink source target i j with
  | error e => exact .refused e
  | ok l =>
    obtain ⟨c, d, h⟩ := allowed_of_ok allowed
    exact .done (run_joining h.fits.mem_keys)

theorem planned_reorder (h : p.keys.Nodup) (c : Connector) (links : List Link) :
    CarriedOut Change.run p (Edit.plan p (.reorder c links))
      (Edit.outcome p (.reorder c links)) := by
  simp only [Edit.plan, Edit.outcome, reorder]
  cases found : p.find c.stage with
  | error e => exact .refused e
  | ok m =>
    simp only [ok_bind]
    cases placed : links.mapM (positionOf c (m.linksOn c.side)) with
    | error e => exact .refused e
    | ok positions =>
      refine .done ?_
      have inside : ∀ i ∈ positions.mergeSort (· ≤ ·), i < (m.linksOn c.side).length := by
        obtain ⟨listed, rfl⟩ := mapM_positionOf.1 placed
        intro i hi
        obtain ⟨l, hl, rfl⟩ := List.mem_map.1 (List.mem_mergeSort.1 hi)
        exact List.idxOf_lt_length_iff.2 (listed l hl).1
      have run := run_relists (find_eq_ok_iff.1 found) c.side links inside
      rwa [withList_linksOn h (find_eq_ok_iff.1 found)] at run

theorem Sound.planned_disconnect (h : p.Sound) (l : Link) :
    CarriedOut Change.run p (Edit.plan p (.disconnect l)) (Edit.outcome p (.disconnect l)) := by
  simp only [Edit.plan, Edit.outcome, Pipeline.disconnect]
  split
  · rename_i hl
    obtain ⟨q, hq, _⟩ := h.drop (by simpa using hl)
    exact hq ▸ .done (run_dropping hq)
  · exact .refused _

theorem Sound.planned_unlink (h : p.Sound) (c : Connector) :
    CarriedOut Change.run p (Edit.plan p (.unlink c)) (Edit.outcome p (.unlink c)) := by
  have nodup := (h.linksOn_nodup c.stage c.side).filter fun l => l.slotOn c.side == c.slot
  obtain ⟨q, hq, _⟩ := h.dropAll nodup fun l hl =>
    (h.mem_linksOn.1 (List.mem_filter.1 hl).1).1
  have unlinked : Edit.outcome p (.unlink c) = (q, none) := by
    simp only [Edit.outcome, Pipeline.unlink, hq]
    rfl
  exact unlinked ▸ .done (run_droppings hq)

theorem Sound.planned_remove (h : p.Sound) (key : String) :
    CarriedOut Change.run p (Edit.plan p (.remove key)) (Edit.outcome p (.remove key)) := by
  cases found : p.member? key with
  | none =>
    simp only [Edit.plan, Edit.outcome, Pipeline.remove, find, found]
    exact .refused _
  | some m =>
    obtain ⟨hm, rfl⟩ := mem_of_member? found
    -- The links go one by one, since none of them stands on both sides of the member.
    obtain ⟨q, removed, _⟩ := h.remove_eq hm
    have outcome : Edit.outcome p (.remove m.key) = (q, none) := by
      rw [Edit.outcome, removed]
      rfl
    have plan : Edit.plan p (.remove m.key) =
        .ok ((m.incoming ++ m.outgoing).flatMap dropping ++ [.leave m.key]) := by
      rw [Edit.plan, find_eq_ok_iff.2 found]
      rfl
    rw [plan, outcome]
    refine .done ?_
    simp only [Pipeline.remove, found] at removed
    split at removed
    · cases removed
    · rename_i r hr
      have stays : m.key ∈ r.keys := by
        have shrinks := shrinks_dropAll p (m.incoming ++ m.outgoing)
        rw [hr] at shrinks
        rw [keys_eq_of_frame shrinks.frame]
        exact mem_keys_of_member? found
      rw [List.foldlM_append, run_droppings hr, ok_bind, List.foldlM_cons, run_leave stays]
      exact congrArg Except.ok (Prod.mk.inj removed).1

theorem Sound.planned (h : p.Sound) (edit : Edit) :
    CarriedOut Change.run p (edit.plan p) (edit.outcome p) := by
  cases edit with
  | add s id => exact planned_add p s id
  | remove key => exact h.planned_remove key
  | move key position => exact planned_move p key position
  | connect source target i j => exact planned_connect p source target i j
  | disconnect l => exact h.planned_disconnect l
  | unlink c => exact h.planned_unlink c
  | reorder c links => exact planned_reorder h.keys_nodup c links
  | clear => exact .done rfl
  | give serial position given => exact .done rfl

end Sluice.Pipeline
