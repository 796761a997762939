import Sluice.Proofs.Reading.Restoring
import Sluice.Proofs.Writing.Twins

/-! Written pipelines read back. What is read has the same tasks with the same values, the same
links and the same peers in the same order, under new names; and it is written as the same text. -/

namespace Sluice

open CommandLine Pipeline Writing Reading
open scoped List

/-- The second pipeline has the members that the first has in an order, under new names: their tasks
and values, the links among them, and the same peers for every connector. -/
structure Pipeline.Mirrors (p : Pipeline) (order : List Member) (f : String → String)
    (q : Pipeline) : Prop where
  members : List.Forall₂
    (fun m n : Member => n.key = f m.id ∧ n.id = f m.id ∧ n.task = m.task ∧ n.values = m.values)
    order q.members
  keys_nodup : q.keys.Nodup
  links : q.links ~ (induced p (order.map Member.id)).map (Link.rename f)
  peers : ∀ m ∈ order, ∀ side, ∀ c ∈ m.connectors side, ∃ ps,
    p.peers c (some (order.map Member.id)) = .ok ps ∧
      q.peers (c.rename f) none = .ok (ps.map (Connector.rename f))

namespace Argument

theorem value_readBack {a : Argument} (h : a.parameter.verbatim = true → a.parameter.default = none)
    (settings : Settings) : (a.readBack settings).value = a.value := by
  unfold readBack
  cases hw : a.isWritten settings with
  | true => rfl
  | false =>
    have hdefault : a.isDefault = true → a.fallback = a.value := by
      intro hd
      unfold isDefault at hd
      unfold value
      split at hd
      · rename_i hg
        rw [hg]
        rfl
      · rename_i v hg
        rw [hg]
        exact (beq_iff_eq.1 hd).symm
    cases hd : a.isDefault with
    | true => exact hdefault hd
    | false =>
      have hempty : a.value = "" ∧ a.parameter.verbatim = true := by
        simpa [isWritten, hd] using hw
      have hfallback : a.fallback = "" := by rw [fallback, h hempty.2]; rfl
      exact hfallback.trans hempty.1.symm

theorem isDefault_eq (a : Argument) : a.isDefault = (a.value == a.fallback) := by
  unfold isDefault value
  cases a.given with
  | none => exact (beq_self_eq_true a.fallback).symm
  | some v => rfl

theorem valuePart?_congr {a b : Argument} (parameter : a.parameter = b.parameter)
    (value : a.value = b.value) (settings : Settings) (layout : Layout) :
    valuePart? settings layout a = valuePart? settings layout b := by
  simp only [valuePart?, isDefault_eq, name, fallback, parameter, value]

end Argument

namespace Job

variable {j : Job}

theorem value_readBack (proper : j.Proper) (plain : j.task.Plain) (settings : Settings) :
    ∀ a ∈ j.arguments, (a.readBack settings).value = a.value := by
  intro a ha
  refine Argument.value_readBack (fun hv => ?_) settings
  rcases proper.verbatim_cases plain with hnone | ⟨b, hb, _, _, hdefault⟩
  · rw [hnone a ha] at hv
    cases hv
  · obtain rfl : a = b := by simpa [hb] using ha
    exact hdefault

theorem values_readBack (proper : j.Proper) (plain : j.task.Plain) (settings : Settings) :
    (j.arguments.map (Argument.readBack settings)).map (fun a => (a.name, a.value)) =
      j.values := by
  rw [List.map_map]
  refine List.map_congr_left fun a ha => ?_
  rw [Function.comp, value_readBack proper plain settings a ha]
  rfl

theorem parts_readBack (proper : j.Proper) (plain : j.task.Plain) (settings : Settings)
    (layout : Layout) :
    (j.arguments.map (Argument.readBack settings)).filterMap (valuePart? settings layout) =
      valueParts settings layout j := by
  rw [List.filterMap_map]
  refine List.filterMap_congr fun a ha => ?_
  exact Argument.valuePart?_congr (a := a.readBack settings) (b := a) rfl
    (value_readBack proper plain settings a ha) settings layout

end Job

namespace Pipeline

variable {p q : Pipeline} {settings : Settings} {d : Dialect} {order chosen : List Member}
  {f : String → String}

theorem farEnd_rename (frame : q.frame = order.zipIdx.map (Member.copy settings))
    (keys : q.keys.Nodup) (hp : p.Sound) (named : p.Named)
    (inside : ∀ m ∈ order, m ∈ p.members) (ren : Renames f order) {l : Link} {side : Side}
    {e : Connector} (hend : l.endOn side.other ∈ order.map Member.id)
    (he : p.farEnd side l = .ok e) : q.farEnd side (l.rename f) = .ok (e.rename f) := by
  obtain ⟨m, hm, hid⟩ := List.mem_map.1 hend
  obtain ⟨n, hn, hcopied⟩ := member?_copy frame keys ren hm
  rw [hid] at hn
  have hpm : p.member? (l.endOn side.other) = some m := by
    rw [← hid, named m (inside m hm)]
    exact member?_of_mem hp.keys_nodup (inside m hm)
  cases side with
  | input =>
    obtain ⟨k, hk, hget⟩ := outputAt_eq_ok.1 he
    obtain rfl : m = k := Option.some.inj (hpm.symm.trans hk)
    exact outputAt_eq_ok.2 ⟨n, hn, hcopied hget⟩
  | output =>
    obtain ⟨k, hk, hget⟩ := inputAt_eq_ok.1 he
    obtain rfl : m = k := Option.some.inj (hpm.symm.trans hk)
    exact inputAt_eq_ok.2 ⟨n, hn, hcopied hget⟩

theorem peers_congr {among other : List String} (same : ∀ id, id ∈ among ↔ id ∈ other)
    (c : Connector) : p.peers c (some among) = p.peers c (some other) := by
  have hwithin : within (some among) = within (some other) := by
    funext id
    rw [Bool.eq_iff_iff, within_some, within_some, same]
  rw [peers, peers, hwithin]

theorem copies_of_frame (frame : q.frame = order.zipIdx.map (Member.copy settings))
    (ren : Renames f order) : List.Forall₂
      (fun m n : Member => n.key = f m.id ∧ n.id = f m.id ∧ n.task = m.task ∧
        n.arguments = m.arguments.map (Argument.readBack settings)) order q.members := by
  have copied : List.Forall₂ (fun (e : Member × Nat) (n : Member) =>
      Member.copy settings e = n.bare) order.zipIdx q.members := by
    have := frame.symm
    rwa [Pipeline.frame, ← List.forall₂_eq_eq_eq, List.forall₂_map_left_iff,
      List.forall₂_map_right_iff] at this
  rw [← List.zipIdx_map_fst 0 order, List.forall₂_map_left_iff]
  refine ((List.forall₂_and_left _ _).2 ⟨ren, copied⟩).imp fun e n hen => ?_
  obtain ⟨hid, hcopy⟩ := hen
  have hkey : n.key = numberedId e.1.task.name e.2 := (congrArg Member.key hcopy.symm :)
  have hname : n.id = numberedId e.1.task.name e.2 := (congrArg Member.id hcopy.symm :)
  exact ⟨hkey.trans hid.symm, hname.trans hid.symm,
    (congrArg (fun k : Member => k.task) hcopy.symm :),
    (congrArg (fun k : Member => k.arguments) hcopy.symm :)⟩

theorem mirrors_of_restores {among : List String} (h : Restores p among settings f order q)
    (hp : p.Sound) (named : p.Named) (inside : ∀ m ∈ order, m ∈ p.members)
    (ids : (order.map Member.id).Nodup) (all : ∀ id, id ∈ among ↔ id ∈ order.map Member.id)
    (ren : Renames f order) (proper : ∀ m ∈ order, m.toJob.Proper)
    (plain : ∀ m ∈ order, m.task.Plain) : p.Mirrors order f q where
  members := by
    refine ((List.forall₂_and_left _ _).2 ⟨fun m hm => hm, copies_of_frame h.frame ren⟩).imp
      fun m n hmn => ?_
    obtain ⟨hm, hkey, hid, htask, harguments⟩ := hmn
    refine ⟨hkey, hid, htask, ?_⟩
    rw [Job.values, harguments]
    exact Job.values_readBack (proper m hm) (plain m hm) settings
  keys_nodup := h.sound.keys_nodup
  links := by
    rw [h.links_eq]
    refine List.Perm.map _ ((List.perm_ext_iff_of_nodup (flatMap_feeds_nodup hp named inside ids)
      (hp.links_nodup.filter _)).2 fun l => ?_)
    rw [mem_flatMap_feeds hp named inside all]
    simp only [induced, List.mem_filter, Bool.and_eq_true, List.contains_iff_mem, all]
  peers := by
    intro m hm side c hc
    obtain ⟨hstage, hside, _⟩ := Member.mem_connectors hc
    obtain ⟨ps, hps, hfar⟩ := hp.peers_far named c (some among)
    obtain ⟨qs, hqs, hcopied⟩ := h.sound.peers_far h.named (c.rename f) none
    rw [h.places m hm side c hc, List.forall₂_map_left_iff] at hcopied
    refine ⟨ps, (peers_congr (fun id => (all id).symm) c).trans hps, hqs.trans (congrArg _ ?_)⟩
    have inAmong : ∀ l ∈ p.linksAmong c.place (some among),
        l.endOn c.side.other ∈ order.map Member.id := fun l hl =>
      (all _).1 (within_some.1 (hp.mem_linksAmong.1 hl).2)
    generalize p.linksAmong c.place (some among) = ls at hfar hcopied inAmong
    clear hps hqs
    induction hfar generalizing qs with
    | nil =>
      cases hcopied
      rfl
    | @cons l e ls es hle _ ih =>
      cases hcopied with
      | cons hle' hrest =>
        have hsame := farEnd_rename h.frame h.sound.keys_nodup hp named inside ren
          (inAmong l (by simp)) hle.1
        have heq := hle'.1
        rw [show (c.rename f).side = c.side from rfl, hsame, Except.ok.injEq] at heq
        rw [List.map_cons, ← heq, ih _ hrest fun k hk => inAmong k (by simp [hk])]

def forkCatalogue : Catalogue :=
  ⟨[("source", source), ("sink", sink)], [("s", "source")]⟩

theorem forkCatalogue_knows : ∀ t ∈ [source, sink], forkCatalogue.Knows Settings.default t := by
  simp only [List.forall_mem_cons, List.not_mem_nil, false_implies, implies_true, and_true]
  refine ⟨⟨Task.spoken_of_long rfl, rfl, ?_, ?_⟩, Task.spoken_of_long rfl, rfl, ?_, ?_⟩ <;>
    decide +kernel

theorem fork_plain : ∀ t ∈ [source, sink], t.Plain := by
  have parameter : ∀ a : Parameter, a.name = "file" → a.Plain := by
    intro a ha
    refine ⟨?_, ?_, ?_⟩ <;> rw [ha]
    · decide +kernel
    · rfl
    · exact readPipeKey_eq_none.2 (by decide +kernel)
  have slots : ∀ t ∈ [source, sink], ∀ slots ∈ [t.inputs, t.outputs], ∀ i < slots.length,
      i ≤ 1024 := by decide
  have readable : ∀ t ∈ [source, sink], ∀ slots ∈ [t.inputs, t.outputs], ∀ i < slots.length,
      Text.Readable i := fun t ht ss hs i hi => Text.readable_of_le (slots t ht ss hs i hi)
  intro t ht
  refine ⟨?_, .inl ?_, readable t ht⟩
  all_goals
    simp only [List.mem_cons, List.not_mem_nil, or_false] at ht
    rcases ht with rfl | rfl
  · simpa [source] using parameter _ rfl
  · simpa [sink] using parameter _ rfl
  · simp [source]
  · simp [sink]

theorem fork_tasks {m : Member} (hm : m ∈ fork.members) : m.task ∈ [source, sink] := by
  have hmem : m.task ∈ fork.members.map fun m => m.task := List.mem_map_of_mem hm
  have htasks : (fork.members.map fun m => m.task) = [sink, sink, source] := rfl
  rw [htasks] at hmem
  simp only [List.mem_cons, List.not_mem_nil, or_false] at hmem ⊢
  rcases hmem with h | h | h <;> simp [h]

theorem fork_carried {m : Member} (hm : m ∈ fork.members) :
    m.toJob.Carried Settings.default Dialect.bash := by
  have carries : Dialect.bash.Carries "x y" := by
    refine ⟨by decide +kernel, by decide +kernel, ?_, fun before after h => ?_⟩
    · refine ⟨?_, ?_, ?_, trivial⟩ <;> decide +kernel
    · have hmark : '\\' ∈ "x y".toList := by
        rw [h]
        simp [Dialect.bash]
      exact absurd hmark (by decide)
  have hmem : m.arguments ∈ fork.members.map fun m => m.arguments := List.mem_map_of_mem hm
  have harguments : (fork.members.map fun m => m.arguments) =
      [[⟨⟨"file", none, false, false, ""⟩, none⟩], [⟨⟨"file", none, false, false, ""⟩, some "x y"⟩],
        [⟨⟨"file", some "-", true, false, ""⟩, none⟩]] := rfl
  rw [harguments] at hmem
  intro a ha
  simp only [List.mem_cons, List.not_mem_nil, or_false] at hmem
  rcases hmem with h | h | h <;> obtain rfl := List.mem_singleton.1 (h ▸ ha) <;> intro hw
  · exact absurd hw (by decide +kernel)
  · exact ⟨carries, fun hv => absurd hv (by decide)⟩
  · exact absurd hw (by decide +kernel)

theorem fork_acyclic : Acyclic fork.links :=
  .of_rank (fun key => if key = "source_2" then 0 else 1) (by decide +kernel)

theorem default_dashless : Settings.default.Dashless := by
  refine ⟨by decide, calm_of_nonblank ?_⟩
  decide +kernel

theorem fork_portable {m : Member} (hm : m ∈ fork.members) :
    m.toJob.Portable forkCatalogue Settings.default Dialect.bash :=
  ⟨forkCatalogue_knows _ (fork_tasks hm), fork_plain _ (fork_tasks hm), fork_carried hm⟩

/-- The text that is written for some members of a pipeline is read back as a mirror of them. -/
theorem Built.mirrors_of_write (b : Built Edit.Regular p)
    (names : ∀ m ∈ p.members, Text.holdsBlank m.task.name = false)
    (inside : ∀ m ∈ chosen, m ∈ p.members) (nodup : chosen.Nodup)
    (acyclic : Acyclic (induced p (chosen.map Member.id))) (hd : d ∈ Dialect.all)
    {addToolPath : Bool} (tool : addToolPath = true → settings.Dashless) {catalogue : Catalogue}
    (portable : ∀ m ∈ chosen, m.toJob.Portable catalogue settings d) (name : Option String) :
    ∃ text order q, p.write settings (Layout.ofDialect d addToolPath)
        (some (chosen.map Member.toStage)) = .ok text ∧
      Reader.read ⟨catalogue, d.marker, false⟩ text name = .ok q ∧ order ~ chosen ∧
      ReadyOrder p (chosen.map Member.id) [] order ∧ p.Mirrors order (newName order) q := by
  have startless : ∀ m ∈ p.members, Text.startsBlank m.task.name = false := fun m hm =>
    Text.startsBlank_of_nonblank (names m hm)
  have named : p.Named := b.sound.named startless
  obtain ⟨order, perm, ready, hwrite⟩ := exists_through b.sound named
    (Layout.ofDialect d addToolPath) inside (fun m hm => (portable m hm).known.spoken) acyclic
  have members : ∀ m ∈ order, m ∈ chosen := fun m hm => perm.mem_iff.1 hm
  have inside' : ∀ m ∈ order, m ∈ p.members := fun m hm => inside m (members m hm)
  have nodup' : order.Nodup := perm.nodup_iff.2 nodup
  have all : ∀ id, id ∈ chosen.map Member.id ↔ id ∈ order.map Member.id := fun id =>
    (perm.map _).mem_iff.symm
  have ids := ids_nodup b.sound named inside' nodup'
  obtain ⟨q, hread, restores⟩ := b.read_through startless inside' nodup' all acyclic ready hd tool
    (fun m hm => portable m (members m hm)) name
  exact ⟨_, order, q, hwrite, hread, perm, ready, mirrors_of_restores restores b.sound named inside'
    ids all (renames_newName ids) (fun m hm => b.proper m (inside' m hm))
    fun m hm => (portable m (members m hm)).plain⟩

theorem fork_mirrors : ∃ text order q,
    fork.write Settings.default (Layout.ofDialect Dialect.bash true)
      (some (fork.members.map Member.toStage)) = .ok text ∧
    Reader.read ⟨forkCatalogue, Dialect.bash.marker, false⟩ text none = .ok q ∧
    order ~ fork.members ∧ ReadyOrder fork (fork.members.map Member.id) [] order ∧
    fork.Mirrors order (newName order) q := by
  refine fork_built.regular.mirrors_of_write (by decide +kernel) (fun _ hm => hm) ?_ ?_
    (by simp [Dialect.all]) (fun _ => default_dashless) (fun m hm => fork_portable hm) none
  · exact List.Nodup.of_map Member.id (by decide +kernel)
  · exact fork_acyclic.mono fun l hl => (List.mem_filter.1 hl).1

theorem twins_of_restores {among : List String} (h : Restores p among settings f order q)
    (ren : Renames f order) (proper : ∀ m ∈ order, m.toJob.Proper)
    (plain : ∀ m ∈ order, m.task.Plain) (layout : Layout) :
    List.Forall₂ (Member.Twin settings layout f) order q.members := by
  refine ((List.forall₂_and_left _ _).2 ⟨fun m hm => hm, copies_of_frame h.frame ren⟩).imp
    fun m n hmn => ?_
  obtain ⟨hm, _, hid, htask, harguments⟩ := hmn
  refine ⟨hid, htask, ?_⟩
  rw [valueParts, harguments]
  exact Job.parts_readBack (proper m hm) (plain m hm) settings layout

theorem linksAmong_members (hp : p.Sound) (named : p.Named) (place : String × Side × Nat) :
    p.linksAmong place (some (p.members.map Member.id)) = p.linksAmong place none := by
  refine List.filter_congr fun l hl => ?_
  have hlinks : l ∈ p.links := (hp.mem_linksOn.1 (List.mem_filter.1 hl).1).1
  obtain ⟨m, hm, hid, _⟩ := hp.exists_connector named hlinks place.2.1.other
  rw [Bool.eq_iff_iff, within_some]
  exact iff_of_true (List.mem_map.2 ⟨m, hm, hid⟩) rfl

theorem corresponds_of_restores {among : List String} (h : Restores p among settings f order q)
    (hp : p.Sound) (named : p.Named) (inside : ∀ m ∈ order, m ∈ p.members)
    (all : ∀ id, id ∈ among ↔ id ∈ order.map Member.id) (ren : Renames f order) :
    p.Corresponds q among (q.members.map Member.id) f where
  inj := fun a ha b hb hab => ren.inj ((all a).1 ha) ((all b).1 hb) hab
  links := by
    intro m hm counts side c hc
    obtain ⟨k, hk, hid⟩ := List.mem_map.1 ((all _).1 counts)
    obtain rfl : k = m := hp.eq_of_id named (inside k hk) hm hid
    rw [linksAmong_members h.sound h.named, h.places k hk side c hc]

/-- What is read from the text for a pipeline is written as the same text. -/
theorem Built.write_of_write (b : Built Edit.Regular p)
    (names : ∀ m ∈ p.members, Text.holdsBlank m.task.name = false)
    (acyclic : Acyclic p.links) (hd : d ∈ Dialect.all) {addToolPath : Bool}
    (tool : addToolPath = true → settings.Dashless) {catalogue : Catalogue}
    (portable : ∀ m ∈ p.members, m.toJob.Portable catalogue settings d) (name : Option String) :
    ∃ text q, p.write settings (Layout.ofDialect d addToolPath) none = .ok text ∧
      Reader.read ⟨catalogue, d.marker, false⟩ text name = .ok q ∧
      q.write settings (Layout.ofDialect d addToolPath) none = .ok text := by
  have hp := b.sound
  have startless : ∀ m ∈ p.members, Text.startsBlank m.task.name = false := fun m hm =>
    Text.startsBlank_of_nonblank (names m hm)
  have named : p.Named := hp.named startless
  have acyclic' : Acyclic (induced p (p.members.map Member.id)) :=
    acyclic.mono fun l hl => (List.mem_filter.1 hl).1
  obtain ⟨order, perm, ready, hwrite⟩ := exists_through hp named
    (Layout.ofDialect d addToolPath) (fun m hm => hm)
    (fun m hm => (portable m hm).known.spoken) acyclic'
  have inside : ∀ m ∈ order, m ∈ p.members := fun m hm => perm.mem_iff.1 hm
  have nodup : order.Nodup := perm.nodup_iff.2 (List.Nodup.of_map Member.key hp.keys_nodup)
  have all : ∀ id, id ∈ p.members.map Member.id ↔ id ∈ order.map Member.id := fun id =>
    (perm.map _).mem_iff.symm
  have ren := renames_newName (ids_nodup hp named inside nodup)
  obtain ⟨q, hread, restores⟩ := b.read_through startless inside nodup all acyclic' ready hd tool
    (fun m hm => portable m (inside m hm)) name
  refine ⟨_, q, hwrite, hread, ?_⟩
  have first := writeQueue_of_ready hp named (Layout.ofDialect d addToolPath)
    (w := Writing.start (toolBlocks settings (Layout.ofDialect d addToolPath)))
    (by simp [HasNumbers, Writing.start])
    (fun m hm => ⟨inside m hm, (all _).2 (List.mem_map_of_mem hm)⟩)
    (fun m hm => (portable m (inside m hm)).known.spoken) ready
  have second := writeQueue_rename hp named restores.sound restores.named
    (corresponds_of_restores restores hp named inside all ren) 0
    (w := Writing.start (toolBlocks settings (Layout.ofDialect d addToolPath)))
    (by simp [HasNumbers, Writing.start]) ⟨by simp [Writing.start], by simp [Writing.start]⟩
    (fun m hm => ⟨inside m hm, (all _).2 (List.mem_map_of_mem hm)⟩)
    (fun n hn => ⟨hn, List.mem_map_of_mem hn⟩)
    (twins_of_restores restores ren (fun m hm => b.proper m (inside m hm))
      (fun m hm => (portable m (inside m hm)).plain) (Layout.ofDialect d addToolPath))
  rw [first] at second
  change q.write settings (Layout.ofDialect d addToolPath)
    (some (q.members.map Member.toStage)) = _
  rw [write_eq restores.sound restores.named _ _ fun n hn => hn]
  have again := second.eq_of_ok
  exact congrArg (Except.map (Writing.text (Layout.ofDialect d addToolPath))) again

theorem fork_written_again : ∃ text q,
    fork.write Settings.default (Layout.ofDialect Dialect.bash true) none = .ok text ∧
    Reader.read ⟨forkCatalogue, Dialect.bash.marker, false⟩ text none = .ok q ∧
    q.write Settings.default (Layout.ofDialect Dialect.bash true) none = .ok text :=
  fork_built.regular.write_of_write (by decide +kernel) fork_acyclic (by simp [Dialect.all])
    (fun _ => default_dashless) (fun m hm => fork_portable hm) none

end Pipeline

end Sluice
