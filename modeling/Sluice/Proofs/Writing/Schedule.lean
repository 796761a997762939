import Sluice.Proofs.Pipeline.Acyclic
import Sluice.Proofs.Writing.Numbering
import Sluice.Table

/-! The order in which members are written. The writer either writes all members, each after those
that it reads from, or is left with members of which none is ready; without cycles the second cannot
be. -/

namespace Sluice.Writing

open Pipeline
open scoped List

variable {p : Pipeline} {among : List String} {m : Member}

def Ready (p : Pipeline) (among written : List String) (m : Member) : Prop :=
  ∀ l ∈ feeds p among m, l.source ∈ written

def ReadyOrder (p : Pipeline) (among : List String) : List String → List Member → Prop
  | _, [] => True
  | written, m :: r => Ready p among written m ∧ ReadyOrder p among (m.id :: written) r

theorem ready_iff {written : List String} :
    ((feeds p among m).all fun l => written.contains l.source) = true ↔
      Ready p among written m := by
  simp [Ready]

theorem mem_feeds (h : p.Sound) (named : p.Named) (hm : m ∈ p.members) {l : Link} :
    l ∈ feeds p among m ↔ l ∈ p.links ∧ l.target = m.id ∧ l.source ∈ among := by
  simp only [feeds, List.mem_flatMap, h.mem_linksAmong, within_some]
  constructor
  · rintro ⟨c, hc, ⟨hl, hplace⟩, hs⟩
    obtain ⟨hstage, hside, _⟩ := Member.mem_connectors hc
    simp only [Connector.place, hside] at hplace hs
    exact ⟨hl, (congrArg Prod.fst hplace).trans hstage, hs⟩
  · rintro ⟨hl, ht, hs⟩
    obtain ⟨n, hn, hid, c, hc, hplace⟩ := h.exists_connector named hl .input
    obtain rfl : n = m := h.eq_of_id named hn hm (hid.trans ht)
    refine ⟨c, hc, ?_⟩
    rw [hplace]
    exact ⟨⟨hl, rfl⟩, hs⟩

theorem feeds_nodup (h : p.Sound) (m : Member) : (feeds p among m).Nodup := by
  refine List.nodup_flatMap.2 ⟨fun c _ => h.linksAmong_nodup c.place _, ?_⟩
  have slots : m.inputs.Pairwise fun c d => c.slot ≠ d.slot :=
    List.pairwise_map.1 (m.slots_nodup .input)
  refine slots.imp_of_mem fun {c d} hc hd hne l hl hl' => hne ?_
  have hc := (Member.mem_connectors hc).2.1
  have hd := (Member.mem_connectors hd).2.1
  have hl := (h.mem_linksAmong.1 hl).1.2
  have hl' := (h.mem_linksAmong.1 hl').1.2
  simp only [Connector.place, hc] at hl
  simp only [Connector.place, hd] at hl'
  exact congrArg (fun t => t.2.2) (hl.symm.trans hl')

def HasNumbers (p : Pipeline) (w : Writing) : Prop :=
  ∀ m ∈ p.members, m.id ∈ w.written → ∀ c ∈ m.outputs, (w.numbers.lookup c.place).isSome

theorem map_fst_numbered (readers : Connector → Nat) (last : Nat) (cs : List Connector) :
    (numbered readers last cs).map Prod.fst = cs := by
  induction cs generalizing last with
  | nil => rfl
  | cons c r ih => simp [numbered, ih]

theorem mem_of_numbered {readers : Connector → Nat} {last : Nat} {cs : List Connector}
    {e : Connector × Nat} (h : e ∈ numbered readers last cs) : e.1 ∈ cs := by
  rw [← map_fst_numbered readers last cs]
  exact List.mem_map_of_mem h

theorem HasNumbers.after {w : Writing} (hw : HasNumbers p w) (h : p.Sound) (named : p.Named)
    (settings : Settings) (layout : Layout) (hm : m ∈ p.members) :
    HasNumbers p (after p settings layout among w m) := by
  intro n hn hwritten c hc
  rw [Table.lookup_isSome_iff, Writing.after, List.map_append, List.mem_append]
  rcases List.mem_cons.1 hwritten with hid | hold
  · left
    obtain rfl : n = m := h.eq_of_id named hn hm hid
    have hc' : c ∈ (numberedOutputs p among w.last n).map Prod.fst := by
      rw [numberedOutputs, map_fst_numbered]
      exact hc
    obtain ⟨e, he, rfl⟩ := List.mem_map.1 hc'
    simp only [List.map_reverse, List.mem_reverse, List.map_map, List.mem_map]
    exact ⟨e, he, rfl⟩
  · exact .inr (Table.lookup_isSome_iff.1 (hw n hn hold c hc))

theorem HasNumbers.of_ready {w : Writing} (hw : HasNumbers p w) (h : p.Sound) (named : p.Named)
    (hm : m ∈ p.members) (ready : Ready p among w.written m) :
    ∀ l ∈ feeds p among m, (w.numbers.lookup (l.placeOn .output)).isSome := by
  intro l hl
  obtain ⟨n, hn, hid, c, hc, hplace⟩ :=
    h.exists_connector named ((mem_feeds h named hm).1 hl).1 .output
  have hwritten : n.id ∈ w.written := hid ▸ ready l hl
  exact hplace ▸ hw n hn hwritten c hc

def Outcome (p : Pipeline) (settings : Settings) (layout : Layout) (among : List String)
    (w : Writing) (queue : List Member) (result : Except PipelineError Writing) : Prop :=
  ∃ order rest, order ++ rest ~ queue ∧ ReadyOrder p among w.written order ∧
    if rest = [] then result = .ok (order.foldl (after p settings layout among) w)
    else (∀ m ∈ rest,
        ¬Ready p among (order.foldl (after p settings layout among) w).written m) ∧
      result = .error (.cycle (rest.map Member.id))

theorem Outcome.cons {settings : Settings} {layout : Layout} {w : Writing} {queue : List Member}
    {result : Except PipelineError Writing} (ready : Ready p among w.written m)
    (h : Outcome p settings layout among (after p settings layout among w m) queue result) :
    Outcome p settings layout among w (m :: queue) result := by
  obtain ⟨order, rest, hperm, hready, hresult⟩ := h
  exact ⟨m :: order, rest, hperm.cons m, ⟨ready, hready⟩, hresult⟩

theorem Outcome.ne_noText {settings : Settings} {layout : Layout} {w : Writing}
    {queue : List Member} {result : Except PipelineError Writing}
    (h : Outcome p settings layout among w queue result) (value : Document) :
    result ≠ .error (.noText value) := by
  obtain ⟨order, rest, _, _, hresult⟩ := h
  split at hresult
  · rw [hresult]
    nofun
  · rw [hresult.2]
    nofun

def Mute (settings : Settings) (queue : List Member) (result : Except PipelineError Writing) :
    Prop :=
  ∃ m ∈ queue, ¬m.task.Spoken settings ∧ result = .error (.noText m.task.shortName)

theorem Mute.mono {settings : Settings} {queue more : List Member}
    {result : Except PipelineError Writing} (h : Mute settings queue result) (sub : queue ⊆ more) :
    Mute settings more result :=
  h.imp fun _ hm => ⟨sub hm.1, hm.2⟩

theorem writeQueue_outcome (h : p.Sound) (named : p.Named) (settings : Settings) (layout : Layout)
    {w : Writing} (front back : List Member) (hw : HasNumbers p w)
    (hq : ∀ m ∈ front ++ back, m ∈ p.members ∧ m.id ∈ among)
    (hback : ∀ m ∈ back, ¬Ready p among w.written m) :
    Outcome p settings layout among w (front ++ back)
        (writeQueue p settings layout among back.length w (front ++ back)) ∨
      Mute settings (front ++ back)
        (writeQueue p settings layout among back.length w (front ++ back)) := by
  induction hn : (front ++ back).length using Nat.strongRecOn generalizing front back w with
  | ind n ih =>
    induction front generalizing back with
    | nil =>
      cases back with
      | nil => exact .inl ⟨[], [], .refl _, trivial, by rw [if_pos rfl]; simp [writeQueue]⟩
      | cons m r =>
        have hm := hback m (by simp)
        refine .inl ⟨[], r ++ [m], List.perm_append_singleton m r, trivial, ?_⟩
        rw [if_neg (by simp)]
        refine ⟨fun k hk => hback k (by simpa [or_comm] using hk), ?_⟩
        rw [List.nil_append, writeQueue, isReady_eq h named, ok_bind,
          if_neg (by rw [ready_iff]; exact hm), dif_pos (by simp)]
        rfl
    | cons m f ihf =>
      have hm := hq m (by simp)
      rw [List.cons_append, writeQueue, isReady_eq h named, ok_bind]
      by_cases hready : Ready p among w.written m
      · rw [if_pos (ready_iff.2 hready)]
        by_cases spoken : m.task.Spoken settings
        · rw [writeMember_eq h named layout w spoken hm.1 hm.2 (hw.of_ready h named hm.1 hready),
            ok_bind]
          have rest := ih (f ++ back).length (by simp at hn ⊢; omega)
            (w := after p settings layout among w m) (f ++ back) []
            (hw.after h named settings layout hm.1)
            (fun k hk => hq k (List.mem_cons_of_mem m (by rwa [List.append_nil] at hk)))
            (by simp) (by simp)
          rw [List.append_nil] at rest
          exact rest.imp (.cons hready) fun mute => mute.mono (List.subset_cons_self m _)
        · rw [writeMember_of_mute spoken]
          exact .inr ⟨m, List.mem_cons_self, spoken, rfl⟩
      · rw [if_neg (by rw [ready_iff]; exact hready), dif_neg (by simp)]
        have := ihf (back ++ [m])
          (fun k hk => hq k (by simpa [or_left_comm, or_comm] using hk))
          (fun k hk => by
            rcases List.mem_append.1 hk with hk | hk
            · exact hback k hk
            · rwa [List.mem_singleton.1 hk])
          (by simp at hn ⊢; omega)
        have turned : f ++ (back ++ [m]) ~ m :: (f ++ back) := by
          rw [← List.append_assoc]
          exact List.perm_append_singleton m (f ++ back)
        rw [← List.append_assoc f back [m], List.length_append] at this
        refine this.imp ?_ fun mute => mute.mono (List.append_assoc f back [m] ▸ turned.subset)
        rintro ⟨order, rest, hperm, hr, hresult⟩
        exact ⟨order, rest, hperm.trans (List.append_assoc f back [m] ▸ turned), hr, hresult⟩

def induced (p : Pipeline) (among : List String) : List Link :=
  p.links.filter fun l => among.contains l.source && among.contains l.target

theorem written_foldl (settings : Settings) (layout : Layout) (order : List Member) (w : Writing) :
    (order.foldl (after p settings layout among) w).written =
      (order.map Member.id).reverse ++ w.written := by
  induction order generalizing w with
  | nil => rfl
  | cons m r ih => simp [ih, Writing.after]

theorem mem_induced {l : Link} :
    l ∈ induced p among ↔ l ∈ p.links ∧ l.source ∈ among ∧ l.target ∈ among := by
  simp [induced]

theorem writeQueue_start (h : p.Sound) (named : p.Named) (settings : Settings) (layout : Layout)
    {queue : List Member} (hq : ∀ m ∈ queue, m ∈ p.members) (blocks : List Block) :
    Outcome p settings layout (queue.map Member.id) (start blocks) queue
        (writeQueue p settings layout (queue.map Member.id) 0 (start blocks) queue) ∨
      Mute settings queue
        (writeQueue p settings layout (queue.map Member.id) 0 (start blocks) queue) := by
  have outcome := writeQueue_outcome (w := start blocks) h named settings layout queue []
    (by simp [HasNumbers, start])
    (fun m hm => by
      rw [List.append_nil] at hm
      exact ⟨hq m hm, List.mem_map_of_mem hm⟩) (by simp)
  rwa [List.append_nil] at outcome

theorem writeQueue_spoken (h : p.Sound) (named : p.Named) {settings : Settings} (layout : Layout)
    {queue : List Member} (hq : ∀ m ∈ queue, m ∈ p.members)
    (spoken : ∀ m ∈ queue, m.task.Spoken settings) (blocks : List Block) :
    Outcome p settings layout (queue.map Member.id) (start blocks) queue
      (writeQueue p settings layout (queue.map Member.id) 0 (start blocks) queue) :=
  (writeQueue_start h named settings layout hq blocks).resolve_right
    fun ⟨m, hm, mute, _⟩ => mute (spoken m hm)

theorem waits_of_unready (h : p.Sound) (named : p.Named) {settings : Settings} {layout : Layout}
    {blocks : List Block} {queue order rest : List Member} (hq : ∀ m ∈ queue, m ∈ p.members)
    (perm : order ++ rest ~ queue) (unready : ∀ m ∈ rest, ¬Ready p (queue.map Member.id)
      (order.foldl (after p settings layout (queue.map Member.id)) (start blocks)).written m) :
    ∀ id ∈ rest.map Member.id, ∃ l ∈ induced p (queue.map Member.id),
      l.target = id ∧ l.source ∈ rest.map Member.id := by
  intro id hid
  obtain ⟨m, hm, rfl⟩ := List.mem_map.1 hid
  have hmq : m ∈ queue := perm.mem_iff.1 (List.mem_append_right _ hm)
  obtain ⟨l, hl, hsource⟩ : ∃ l ∈ feeds p (queue.map Member.id) m, l.source ∉
      (order.foldl (after p settings layout (queue.map Member.id)) (start blocks)).written := by
    simpa [Ready] using unready m hm
  obtain ⟨hlinks, htarget, hamong⟩ := (mem_feeds h named (hq m hmq)).1 hl
  refine ⟨l, mem_induced.2 ⟨hlinks, hamong, htarget ▸ List.mem_map_of_mem hmq⟩, htarget, ?_⟩
  rw [written_foldl, List.mem_append, List.mem_reverse] at hsource
  have hall : l.source ∈ (order ++ rest).map Member.id := (perm.map _).mem_iff.2 hamong
  rw [List.map_append, List.mem_append] at hall
  exact hall.resolve_left fun hwritten => hsource (.inl hwritten)

theorem writeQueue_of_acyclic (h : p.Sound) (named : p.Named) {settings : Settings}
    (layout : Layout) {queue : List Member} (hq : ∀ m ∈ queue, m ∈ p.members)
    (spoken : ∀ m ∈ queue, m.task.Spoken settings)
    (acyclic : Acyclic (induced p (queue.map Member.id))) (blocks : List Block) :
    ∃ order, order ~ queue ∧ ReadyOrder p (queue.map Member.id) [] order ∧
      writeQueue p settings layout (queue.map Member.id) 0 (start blocks) queue =
        .ok (order.foldl (after p settings layout (queue.map Member.id)) (start blocks)) := by
  obtain ⟨order, rest, hperm, hready, hresult⟩ :=
    writeQueue_spoken h named layout hq spoken blocks
  by_cases hrest : rest = []
  · rw [if_pos hrest] at hresult
    rw [hrest, List.append_nil] at hperm
    exact ⟨order, hperm, hready, hresult⟩
  · rw [if_neg hrest] at hresult
    obtain ⟨id, hid, hfirst⟩ := acyclic.exists_first (show rest.map Member.id ≠ [] by simpa)
    obtain ⟨l, hl, htarget, hsource⟩ := waits_of_unready h named hq hperm hresult.1 id hid
    exact absurd hsource (hfirst l hl htarget)

theorem writeQueue_of_ready (h : p.Sound) (named : p.Named) {settings : Settings} (layout : Layout)
    {queue : List Member} {w : Writing} (hw : HasNumbers p w)
    (hq : ∀ m ∈ queue, m ∈ p.members ∧ m.id ∈ among)
    (spoken : ∀ m ∈ queue, m.task.Spoken settings)
    (ready : ReadyOrder p among w.written queue) :
    writeQueue p settings layout among 0 w queue =
      .ok (queue.foldl (after p settings layout among) w) := by
  induction queue generalizing w with
  | nil => simp [writeQueue]
  | cons m r ih =>
    have hm := hq m (by simp)
    rw [writeQueue, isReady_eq h named, ok_bind, if_pos (ready_iff.2 ready.1),
      writeMember_eq h named layout w (spoken m (by simp)) hm.1 hm.2
        (hw.of_ready h named hm.1 ready.1), ok_bind]
    exact ih (hw.after h named settings layout hm.1) (fun k hk => hq k (by simp [hk]))
      (fun k hk => spoken k (by simp [hk])) ready.2

end Sluice.Writing
