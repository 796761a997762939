import Sluice.Proofs.Pipeline.Ends
import Sluice.Proofs.Writing.Word

/-! What the writer makes of one member. In a sound pipeline every step of the writer has a result:
which links are read under which numbers, which numbers the outputs get, and which adapters
follow. -/

namespace Sluice.Writing

open Pipeline

variable {p : Pipeline} {among : List String}

/-- The links into a member from the members that count, by input and then in the order in which
the member lists them. -/
def feeds (p : Pipeline) (among : List String) (m : Member) : List Link :=
  m.inputs.flatMap fun c => p.linksAmong c.place (some among)

def readers (p : Pipeline) (among : List String) (c : Connector) : Nat :=
  (p.linksAmong c.place (some among)).length

def span (readers : Nat) : Nat :=
  if readers ≤ 1 then 1 else readers + 1

def numbered (readers : Connector → Nat) : Nat → List Connector → List (Connector × Nat)
  | _, [] => []
  | last, c :: r => (c, last + 1) :: numbered readers (last + span (readers c)) r

def lastOf (readers : Connector → Nat) (last : Nat) (outputs : List Connector) : Nat :=
  outputs.foldl (fun last c => last + span (readers c)) last

def countedFrom (readers : Connector → Nat) (e : Connector × Nat) : (String × Side × Nat) × Nat :=
  (e.1.place, if readers e.1 ≤ 1 then e.2 else e.2 + 1)

def teeOf (readers : Connector → Nat) (e : Connector × Nat) : Option Block :=
  if readers e.1 ≤ 1 then none
  else e.1.flow.tee?.map fun word => .tee word (readers e.1) e.2 (e.2 + 1)

theorem exists_tee {readers : Connector → Nat} {es : List (Connector × Nat)} {b : Block}
    (hb : b ∈ es.filterMap (teeOf readers)) : ∃ e ∈ es, ∃ word, e.1.flow.tee? = some word ∧
      b = .tee word (readers e.1) e.2 (e.2 + 1) := by
  obtain ⟨e, he, heq⟩ := List.mem_filterMap.1 hb
  unfold teeOf at heq
  split at heq
  · cases heq
  · obtain ⟨word, hword, rfl⟩ := Option.map_eq_some_iff.1 heq
    exact ⟨e, he, word, hword, rfl⟩

def pipeOf (p : Pipeline) (among : List String) (numbers : List ((String × Side × Nat) × Nat))
    (l : Link) : Nat :=
  (numbers.lookup (l.placeOn .output)).getD 0 +
    (p.linksAmong (l.placeOn .output) (some among)).idxOf l

def numberedOutputs (p : Pipeline) (among : List String) (last : Nat) (m : Member) :
    List (Connector × Nat) :=
  numbered (readers p among) last m.outputs

def taskBlock (p : Pipeline) (settings : Settings) (layout : Layout) (among : List String)
    (w : Writing) (m : Member) : Block :=
  .task (taskWord settings m.task) (valueParts settings layout m.toJob)
    ((feeds p among m).map fun l => (l.targetSlot, pipeOf p among w.numbers l))
    ((numberedOutputs p among w.last m).map fun e => (e.1.slot, e.2))

def after (p : Pipeline) (settings : Settings) (layout : Layout) (among : List String)
    (w : Writing) (m : Member) : Writing :=
  { written := m.id :: w.written
    numbers := ((numberedOutputs p among w.last m).map (countedFrom (readers p among))).reverse ++
      w.numbers
    last := lastOf (readers p among) w.last m.outputs
    blocks := w.blocks ++ taskBlock p settings layout among w m ::
      (numberedOutputs p among w.last m).filterMap (teeOf (readers p among)) }

theorem length_peers_among (h : p.Sound) (named : p.Named) {c : Connector} {ps : List Connector}
    (hps : p.peers c (some among) = .ok ps) : ps.length = readers p among c := by
  obtain ⟨qs, hqs, hplaces⟩ := h.peers_eq named c (some among)
  obtain rfl : qs = ps := by simpa [hps] using hqs.symm
  simpa [readers] using congrArg List.length hplaces

theorem writeOutput_eq (h : p.Sound) (named : p.Named) (w : Writing) (writes : List (Nat × Nat))
    (tees : List Block) {c : Connector} (fans : readers p among c ≤ 1 ∨ c.flow.tee?.isSome) :
    writeOutput p among (w, writes, tees) c =
      .ok ({ w with
          numbers := countedFrom (readers p among) (c, w.last + 1) :: w.numbers
          last := w.last + span (readers p among c) },
        writes ++ [(c.slot, w.last + 1)],
        tees ++ (teeOf (readers p among) (c, w.last + 1)).toList) := by
  obtain ⟨ps, hps, _⟩ := h.peers_eq named c (some among)
  have hlen := length_peers_among h named hps
  simp only [writeOutput, hps, ok_bind, hlen]
  by_cases hone : readers p among c ≤ 1
  · rw [if_pos hone]
    simp [countedFrom, span, teeOf, hone, pure, Except.pure]
  · obtain ⟨word, hword⟩ := Option.isSome_iff_exists.1 (fans.resolve_left hone)
    rw [if_neg hone]
    simp only [hword, countedFrom, span, teeOf, hone, if_false, Option.map_some,
      Option.toList_some]
    simp only [pure, Except.pure, Except.ok.injEq, Prod.mk.injEq, and_true]
    congr 1
    omega

theorem writeOutputs_eq (h : p.Sound) (named : p.Named) {outputs : List Connector}
    (fans : ∀ c ∈ outputs, readers p among c ≤ 1 ∨ c.flow.tee?.isSome) (w : Writing)
    (writes : List (Nat × Nat)) (tees : List Block) :
    outputs.foldlM (writeOutput p among) (w, writes, tees) =
      .ok ({ w with
          numbers := ((numbered (readers p among) w.last outputs).map
            (countedFrom (readers p among))).reverse ++ w.numbers
          last := lastOf (readers p among) w.last outputs },
        writes ++ (numbered (readers p among) w.last outputs).map (fun e => (e.1.slot, e.2)),
        tees ++ (numbered (readers p among) w.last outputs).filterMap
          (teeOf (readers p among))) := by
  induction outputs generalizing w writes tees with
  | nil => simp [numbered, lastOf, pure, Except.pure]
  | cons c r ih =>
    rw [List.foldlM_cons, writeOutput_eq h named w writes tees (fans c (by simp)), ok_bind,
      ih fun d hd => fans d (by simp [hd])]
    simp only [numbered, lastOf, List.foldl_cons, List.map_cons, List.reverse_cons,
      List.filterMap_cons, List.append_assoc, List.cons_append, List.nil_append]
    cases teeOf (readers p among) (c, w.last + 1) <;> simp

theorem allM_eq_ok {ε α : Type} {f : α → Except ε Bool} {b : α → Bool} {as : List α}
    (h : ∀ a ∈ as, f a = .ok (b a)) : as.allM f = .ok (as.all b) := by
  induction as with
  | nil => rfl
  | cons a r ih =>
    rw [List.allM, h a (by simp), ok_bind, List.all_cons]
    cases b a with
    | true => simpa using ih fun c hc => h c (by simp [hc])
    | false => rfl

theorem peers_input (h : p.Sound) (named : p.Named) (among : List String) {m : Member}
    {c : Connector} (hc : c ∈ m.inputs) : ∃ ps, p.peers c (some among) = .ok ps ∧
      List.Forall₂ (fun l e => e.place = l.placeOn .output)
        (p.linksAmong c.place (some among)) ps := by
  obtain ⟨ps, hps, hfar⟩ := h.peers_far named c (some among)
  have hside : c.side = .input := (Member.mem_connectors hc).2.1
  rw [hside] at hfar
  exact ⟨ps, hps, hfar.imp fun _ _ hle => hle.2⟩

theorem isReady_eq (h : p.Sound) (named : p.Named) (written : List String) (m : Member) :
    isReady p among written m =
      .ok ((feeds p among m).all fun l => written.contains l.source) := by
  rw [feeds, List.all_flatMap]
  refine allM_eq_ok fun c hc => ?_
  obtain ⟨ps, hps, hplaces⟩ := peers_input h named among hc
  rw [hps, ok_bind, pure_eq_ok]
  clear hps
  generalize p.linksAmong c.place (some among) = ls at hplaces ⊢
  induction hplaces with
  | nil => rfl
  | @cons l e ls es hle _ ih =>
    have hstage : e.stage = l.source := congrArg Prod.fst hle
    rw [List.all_cons, List.all_cons, ih, hstage]

theorem findIdx?_place {ps : List Connector} {ls : List Link} {c : Connector} {l : Link}
    {side : Side} (hplaces : ps.map Connector.place = ls.map fun k => k.placeOn side)
    (hl : l ∈ ls) (hc : l.placeOn side = c.place)
    (inj : ∀ k ∈ ls, k.placeOn side = l.placeOn side → k = l) :
    ps.findIdx? (· == c) = some (ls.idxOf l) := by
  induction ls generalizing ps with
  | nil => simp at hl
  | cons k ks ih =>
    cases ps with
    | nil => simp at hplaces
    | cons e es =>
      simp only [List.map_cons, List.cons.injEq] at hplaces
      have hbeq : (e == c) = (e.place == c.place) := rfl
      by_cases hk : k = l
      · subst hk
        have heq : (e == c) = true := by rw [hbeq, hplaces.1, hc, beq_self_eq_true]
        rw [List.findIdx?_cons, heq, List.idxOf_cons_self]
        rfl
      · have hne : (e == c) = false := by
          rw [hbeq, hplaces.1, ← hc, beq_eq_false_iff_ne]
          exact fun heq => hk (inj k (by simp) heq)
        have hl' : l ∈ ks := (List.mem_cons.1 hl).resolve_left (Ne.symm hk)
        rw [List.findIdx?_cons, hne, ih hplaces.2 hl' fun j hj => inj j (by simp [hj])]
        simp [hk]

theorem readNumber_eq (h : p.Sound) (named : p.Named) (w : Writing) {c peer : Connector} {l : Link}
    (hl : l ∈ p.links) (hc : l.placeOn .input = c.place) (hpeer : peer.place = l.placeOn .output)
    (target : l.target ∈ among) (numbered : (w.numbers.lookup (l.placeOn .output)).isSome) :
    w.readNumber p among c peer = .ok (l.targetSlot, pipeOf p among w.numbers l) := by
  obtain ⟨ps, hps, hplaces⟩ := h.peers_eq named peer (some among)
  obtain ⟨n, hn⟩ := Option.isSome_iff_exists.1 numbered
  have hside : peer.side = .output := congrArg (fun t => t.2.1) hpeer
  rw [hside, hpeer] at hplaces
  have hmem : l ∈ p.linksAmong (l.placeOn .output) (some among) :=
    h.mem_linksAmong.2 ⟨⟨hl, rfl⟩, within_some.2 target⟩
  have hidx := findIdx?_place hplaces hmem hc fun k hk heq =>
    Link.eq_of_ends .output (h.mem_linksAmong.1 hk).1.2 heq
  have hslot : c.slot = l.targetSlot := (congrArg (fun t => t.2.2) hc).symm
  have hoffset : p.offset c peer (some among) =
      .ok ((p.linksAmong (l.placeOn .output) (some among)).idxOf l) := by
    simp only [offset, hps, ok_bind, hidx]
    rfl
  simp only [readNumber, hoffset, ok_bind, hpeer, hn, hslot, pipeOf, Option.getD_some]
  rfl

theorem readNumbers_eq (h : p.Sound) (named : p.Named) (w : Writing) {m : Member}
    (counts : m.id ∈ among)
    (numbered : ∀ l ∈ feeds p among m, (w.numbers.lookup (l.placeOn .output)).isSome) :
    w.readNumbers p among m =
      .ok ((feeds p among m).map fun l => (l.targetSlot, pipeOf p among w.numbers l)) := by
  have each : m.inputs.mapM (fun c => do
      (← p.peers c (some among)).mapM (w.readNumber p among c)) =
        .ok (m.inputs.map fun c => (p.linksAmong c.place (some among)).map fun l =>
          (l.targetSlot, pipeOf p among w.numbers l)) := by
    rw [mapM_eq_ok, List.forall₂_map_right_iff, List.forall₂_same]
    intro c hc
    obtain ⟨ps, hps, hplaces⟩ := peers_input h named among hc
    obtain ⟨hstage, hside, _⟩ := Member.mem_connectors hc
    rw [hps, ok_bind, mapM_eq_ok, List.forall₂_map_right_iff]
    have hmem : ∀ l ∈ p.linksAmong c.place (some among), l ∈ p.links ∧
        l.placeOn .input = c.place ∧ l.target ∈ among ∧
          (w.numbers.lookup (l.placeOn .output)).isSome := by
      intro l hl
      obtain ⟨⟨hlinks, hplace⟩, _⟩ := h.mem_linksAmong.1 hl
      have hin : l.placeOn .input = c.place := by
        rw [← hside]
        exact hplace
      have htarget : l.target = m.id := (congrArg Prod.fst hin).trans hstage
      exact ⟨hlinks, hin, htarget ▸ counts, numbered l (List.mem_flatMap.2 ⟨c, hc, hl⟩)⟩
    clear hps
    generalize p.linksAmong c.place (some among) = ls at hmem hplaces ⊢
    induction hplaces with
    | nil => exact .nil
    | @cons l e ls es hle _ ih =>
      obtain ⟨hl, hin, htarget, hn⟩ := hmem l (by simp)
      exact .cons (readNumber_eq h named w hl hin hle htarget hn)
        (ih fun k hk => hmem k (by simp [hk]))
  rw [readNumbers, each, ok_bind, pure_eq_ok, feeds, ← List.flatMap_def, List.map_flatMap]

theorem fans_of_sound (h : p.Sound) (named : p.Named) {m : Member} (hm : m ∈ p.members)
    {c : Connector} (hc : c ∈ m.outputs) :
    readers p among c ≤ 1 ∨ c.flow.tee?.isSome := by
  have hroom := h.room m hm (named m hm) .output c hc
  have hle : readers p among c ≤ (p.linksAt c).length := by
    rw [readers, linksAmong_place]
    exact List.length_filter_le _ _
  rw [Connector.capacity, (Member.mem_connectors hc).2.1] at hroom
  cases hf : c.flow with
  | entity => exact .inr rfl
  | change => exact .inr rfl
  | dataset =>
    rw [hf] at hroom
    exact .inl (Nat.le_trans hle hroom)

theorem writeMember_eq (h : p.Sound) (named : p.Named) {settings : Settings} (layout : Layout)
    (w : Writing) {m : Member} (spoken : m.task.Spoken settings) (hm : m ∈ p.members)
    (counts : m.id ∈ among)
    (numbered : ∀ l ∈ feeds p among m, (w.numbers.lookup (l.placeOn .output)).isSome) :
    w.writeMember p settings layout among m = .ok (after p settings layout among w m) := by
  rw [writeMember, wordOf_eq spoken, ok_bind, readNumbers_eq h named w counts numbered, ok_bind,
    writeOutputs_eq h named (fun c hc => fans_of_sound h named hm hc), ok_bind]
  simp only [List.nil_append, after, taskBlock, numberedOutputs]
  rfl

theorem writeMember_of_mute {settings : Settings} {m : Member} (mute : ¬m.task.Spoken settings)
    (p : Pipeline) (layout : Layout) (among : List String) (w : Writing) :
    w.writeMember p settings layout among m = .error (.noText m.task.shortName) := by
  rw [writeMember, ((wordOf_cases settings m.task).resolve_left fun spoken => mute spoken.1).2]
  rfl

end Sluice.Writing
