import Sluice.Proofs.Pipeline.Growing
import Sluice.Reading

/-! What holds at any time while a command line is read. Labels and open outputs lead to outputs of
members, and every link leads to a later member: a link is only made into the task being read, which
is the last member, so that no command line closes a cycle. -/

namespace Sluice

def Catalogue.Unindented (catalogue : Catalogue) : Prop :=
  ∀ e ∈ catalogue.tasks, Text.startsBlank e.2.name = false

theorem Catalogue.mem_of_lookup {catalogue : Catalogue} {word : String} {task : Task}
    (found : catalogue.lookup word = some task) : ∃ name, (name, task) ∈ catalogue.tasks := by
  have member : ∀ name, catalogue.tasks.lookup name = some task →
      ∃ name, (name, task) ∈ catalogue.tasks := fun name hname =>
    ⟨name, Table.mem_of_lookup hname⟩
  unfold Catalogue.lookup at found
  split at found
  · rename_i found'
    obtain rfl := Option.some.inj found
    exact member _ found'
  · obtain ⟨name, _, hname⟩ := Option.bind_eq_some_iff.1 found
    exact member name hname

theorem Catalogue.Unindented.of_lookup {catalogue : Catalogue} (h : catalogue.Unindented)
    {word : String} {task : Task} (found : catalogue.lookup word = some task) :
    Text.startsBlank task.name = false := by
  obtain ⟨name, hmem⟩ := Catalogue.mem_of_lookup found
  exact h (name, task) hmem

namespace Reading

open Pipeline

variable {s t : Reading} {m : Member} {c : Command} {o : Outlet} {l : Link}

structure Grounded (s : Reading) : Prop where
  growing : s.pipeline.Growing
  labels : ∀ e ∈ s.labels, ∃ d, s.pipeline.outputAt e.2.key e.2.slot = .ok d
  pending : ∀ e ∈ s.pending, ∃ d, s.pipeline.outputAt e.2.key e.2.slot = .ok d ∧ d.flow = e.1
  branched : ∀ e ∈ s.branched, (e.2.map Prod.snd).Nodup ∧
    ∀ l ∈ e.2.map Prod.snd, l ∈ s.pipeline.links

namespace Grounded

theorem start (name : Option String) : (Reading.start name).Grounded where
  growing := .new name
  labels := by simp [Reading.start]
  pending := by simp [Reading.start]
  branched := by simp [Reading.start]

theorem grow (h : s.Grounded) {q : Pipeline} (growing : q.Growing)
    (extension : s.pipeline.Extends q) : Grounded { s with pipeline := q } where
  growing := growing
  labels e he := (h.labels e he).imp fun d hd => extension.outputs _ _ d hd
  pending e he := (h.pending e he).imp fun d hd => ⟨extension.outputs _ _ d hd.1, hd.2⟩
  branched e he := ⟨(h.branched e he).1, fun l hl => extension.links ((h.branched e he).2 l hl)⟩

theorem label (h : s.Grounded) {label : String} (found : s.labels.lookup label = some o) :
    ∃ d, s.pipeline.outputAt o.key o.slot = .ok d :=
  h.labels (label, o) (Table.mem_of_lookup found)

theorem put (h : s.Grounded) {d : Connector} (output : s.pipeline.outputAt o.key o.slot = .ok d)
    (label : String) (branches : List (String × Nat)) :
    Grounded { s with labels := Table.put label o s.labels, branches := branches } where
  growing := h.growing
  labels e he := (Table.mem_of_put he).elim (fun heq => heq ▸ ⟨d, output⟩) (h.labels e)
  pending := h.pending
  branched := h.branched

end Grounded

theorem takeFirst_eq_none {α : Type} {fits : α → Bool} {as : List α} :
    takeFirst fits as = none ↔ ∀ a ∈ as, fits a = false := by
  induction as with
  | nil => simp [takeFirst]
  | cons b r ih =>
    rw [takeFirst, List.forall_mem_cons, ← ih]
    by_cases hb : fits b = true <;> simp [hb]

theorem takeFirst_split {α : Type} {fits : α → Bool} {as rest : List α} {a : α}
    (h : takeFirst fits as = some (a, rest)) : fits a = true ∧ ∃ before after,
      as = before ++ a :: after ∧ rest = before ++ after ∧ ∀ b ∈ before, fits b = false := by
  induction as generalizing a rest with
  | nil => simp [takeFirst] at h
  | cons b r ih =>
    rw [takeFirst] at h
    split at h
    · rename_i hb
      simp only [Option.some.injEq, Prod.mk.injEq] at h
      obtain ⟨rfl, rfl⟩ := h
      exact ⟨hb, [], r, rfl, rfl, by simp⟩
    · rename_i hb
      obtain ⟨⟨a', rest'⟩, hr, heq⟩ := Option.map_eq_some_iff.1 h
      simp only [Prod.mk.injEq] at heq
      obtain ⟨rfl, rfl⟩ := heq
      obtain ⟨hfits, before, after, rfl, rfl, none⟩ := ih hr
      exact ⟨hfits, b :: before, after, rfl, rfl, by simpa [hb] using none⟩

theorem takeFirst_eq_some {α : Type} {fits : α → Bool} {as rest : List α} {a : α}
    (h : takeFirst fits as = some (a, rest)) : fits a = true ∧ a ∈ as ∧ rest ⊆ as := by
  obtain ⟨hfits, before, after, rfl, rfl, _⟩ := takeFirst_split h
  refine ⟨hfits, by simp, fun b hb => ?_⟩
  exact (List.mem_append.1 hb).elim (List.mem_append_left _) fun hb =>
    List.mem_append_right _ (List.mem_cons_of_mem _ hb)

theorem takePending_rest {flow : Flow} (taken : s.takePending flow = some (o, t)) :
    ∃ rest, t = { s with pending := rest } := by
  obtain ⟨⟨_, rest⟩, _, heq⟩ := Option.map_eq_some_iff.1 taken
  exact ⟨rest, congrArg Prod.snd heq.symm⟩

theorem copied_rest {flow : Flow} (found : s.copied flow c = .ok (o, t)) :
    ∃ rest, t = { s with pending := rest } := by
  unfold copied at found
  split at found
  · exact ⟨s.pending, congrArg Prod.snd (pure_eq_ok.1 found).symm⟩
  · split at found
    · rename_i taken
      obtain rfl := pure_eq_ok.1 found
      exact takePending_rest taken
    · simp at found

theorem Grounded.of_takePending (h : s.Grounded) {flow : Flow}
    (taken : s.takePending flow = some (o, t)) : t.Grounded ∧ t.pipeline = s.pipeline ∧
      ∃ d, s.pipeline.outputAt o.key o.slot = .ok d ∧ d.flow = flow := by
  obtain ⟨⟨e, rest⟩, hfirst, heq⟩ := Option.map_eq_some_iff.1 taken
  simp only [Prod.mk.injEq] at heq
  obtain ⟨rfl, rfl⟩ := heq
  obtain ⟨hflow, hmem, hsub⟩ := takeFirst_eq_some hfirst
  obtain ⟨d, hd, hd'⟩ := h.pending e hmem
  exact ⟨⟨h.growing, h.labels, fun e he => h.pending e (hsub he), h.branched⟩, rfl, d, hd,
    hd'.trans (by simpa using hflow)⟩

theorem Grounded.of_copied (h : s.Grounded) {flow : Flow} (found : s.copied flow c = .ok (o, t)) :
    t.Grounded ∧ t.pipeline = s.pipeline ∧ ∃ d, s.pipeline.outputAt o.key o.slot = .ok d := by
  unfold copied at found
  split at found
  · rename_i o' hlabel
    obtain ⟨ref, _, hlookup⟩ := Option.bind_eq_some_iff.1 hlabel
    simp only [pure_eq_ok, Prod.mk.injEq] at found
    obtain ⟨rfl, rfl⟩ := found
    exact ⟨h, rfl, h.label hlookup⟩
  · split at found
    · rename_i found' htaken
      obtain rfl := pure_eq_ok.1 found
      obtain ⟨ht, hp, d, hd, _⟩ := h.of_takePending htaken
      exact ⟨ht, hp, d, hd⟩
    · simp at found

theorem Grounded.bindBranches (h : s.Grounded) {d : Connector}
    (output : s.pipeline.outputAt o.key o.slot = .ok d) (refs : List PipeRef) :
    (refs.foldl (bindBranch o) s).Grounded ∧
      (refs.foldl (bindBranch o) s).pipeline = s.pipeline := by
  induction refs generalizing s with
  | nil => exact ⟨h, rfl⟩
  | cons ref r ih => exact ih (h.put output ref.label _) output

theorem Grounded.reopen (h : s.Grounded) {d : Connector}
    (output : s.pipeline.outputAt o.key o.slot = .ok d) (times : Nat) :
    Grounded { s with pending := s.pending ++ List.replicate times (d.flow, o) } where
  growing := h.growing
  labels := h.labels
  pending e he := by
    rcases List.mem_append.1 he with he | he
    · exact h.pending e he
    · obtain rfl := List.eq_of_mem_replicate he
      exact ⟨d, output, rfl⟩
  branched := h.branched

theorem give?_eq_some {j k : Job} {fits : Argument → Bool} {given : Option String}
    (h : j.give? fits given = some k) : k.serial = j.serial ∧ k.task = j.task := by
  obtain ⟨arguments, _, rfl⟩ := Option.map_eq_some_iff.1 h
  exact ⟨rfl, rfl⟩

theorem giveToken_eq_ok {j k : Job} {t : Token} (h : giveToken c j t = .ok k) :
    ∃ fits, j.give? fits (some t.value) = some k := by
  unfold giveToken at h
  split at h
  all_goals
    split at h
    · rename_i given
      obtain rfl := pure_eq_ok.1 h
      exact ⟨_, given⟩
    · simp at h

theorem giveAll_cases {j k : Job} (h : giveAll c j = .ok k) :
    (k = j ∨ ∃ fits given, (∀ v ∈ given, v = CommandLine.verbatimText c.text) ∧
      j.give? fits given = some k) ∨
    (j.arguments.filter fun a => a.parameter.verbatim).length ≠ 1 ∧
      c.parameters.foldlM (giveToken c) j = .ok k := by
  unfold giveAll at h
  split at h
  · obtain rfl := pure_eq_ok.1 h
    generalize hgiven : (if CommandLine.verbatimText c.text = "" then none
      else some (CommandLine.verbatimText c.text)) = given
    have whole : ∀ v ∈ given, v = CommandLine.verbatimText c.text := by
      rintro v hv
      rw [← hgiven] at hv
      split at hv
      · cases hv
      · exact (Option.some.inj hv).symm
    cases hk : j.give? (fun a => a.parameter.verbatim) given with
    | none => exact .inl (.inl rfl)
    | some k => exact .inl (.inr ⟨_, given, whole, hk⟩)
  · rename_i hmany
    exact .inr ⟨hmany, h⟩

theorem giveAll_eq_ok {j k : Job} (h : giveAll c j = .ok k) :
    k.serial = j.serial ∧ k.task = j.task := by
  rcases giveAll_cases h with (rfl | ⟨_, _, _, hk⟩) | ⟨_, run⟩
  · exact ⟨rfl, rfl⟩
  · exact give?_eq_some hk
  · refine foldlM_keeps (P := fun k => k.serial = j.serial ∧ k.task = j.task)
      (fun t _ b d hb hd => ?_) ⟨rfl, rfl⟩ run
    obtain ⟨_, hgive⟩ := giveToken_eq_ok hd
    obtain ⟨hserial, htask⟩ := give?_eq_some hgive
    exact ⟨hserial.trans hb.1, htask.trans hb.2⟩

theorem step_eq_ok {α : Type} {result : Except PipelineError α} {a : α} :
    step result = .ok a ↔ result = .ok a := by
  cases result <;> simp [step]

def Given (catalogue : Catalogue) (c : Command) (j : Job) : Prop :=
  ∃ serial task, catalogue.lookup c.name = some task ∧ giveAll c (Job.ofTask serial task) = .ok j

def Entered (catalogue : Catalogue) (s : Reading) (c : Command) (m : Member) (t : Reading) :
    Prop :=
  ∃ task job p, catalogue.lookup c.name = some task ∧
    giveAll c (Job.ofTask s.pipeline.size task) = .ok job ∧
    s.pipeline.add { job with id := none } none = .ok (m.key, p) ∧ p.find m.key = .ok m ∧
    t = { s with pipeline := p }

theorem readTask_eq_ok {catalogue : Catalogue} {strict : Bool} {u : Reading} :
    readTask catalogue strict s c = .ok u ↔ ∃ m t, Entered catalogue s c m t ∧
      ∃ labelled, c.inPipes.foldlM (readLabel c m.key) t = .ok labelled ∧
      ∃ filled, m.inputs.foldlM (fillInput strict c m.key) labelled = .ok filled ∧
      ∃ written, c.outPipes.foldlM (writeLabel m) filled = .ok written ∧
        u = m.outputs.foldl (offerOutput c m.key) written := by
  unfold readTask Entered
  cases hlookup : catalogue.lookup c.name with
  | none => simp
  | some task =>
    simp only [bind_eq_ok, step_eq_ok, pure_eq_ok, Option.some.injEq]
    constructor
    · rintro ⟨job, hjob, ⟨key, p⟩, hadd, m, hm, labelled, hl, filled, hf, written, hw, rfl⟩
      have hkey : m.key = key := (mem_of_member? (find_eq_ok_iff.1 hm)).2
      subst hkey
      exact ⟨m, _, ⟨task, job, p, rfl, hjob, hadd, hm, rfl⟩, labelled, hl, filled, hf, written, hw,
        rfl⟩
    · rintro ⟨m, t, ⟨_, job, p, rfl, hjob, hadd, hm, rfl⟩, labelled, hl, filled, hf, written, hw,
        rfl⟩
      exact ⟨job, hjob, (m.key, p), hadd, m, hm, labelled, hl, filled, hf, written, hw, rfl⟩

structure OnTask (m : Member) (s : Reading) : Prop extends Grounded s where
  last : ∃ old, s.pipeline.keys = old ++ [m.key]
  held : ∃ n, s.pipeline.member? m.key = some n ∧ n.bare = m.bare

theorem Entered.onTask {catalogue : Catalogue} (entered : Entered catalogue s c m t)
    (h : s.Grounded) (names : catalogue.Unindented) :
    OnTask m t ∧ ∃ st : Stage, Given catalogue c st.toJob ∧
      Appended st m.key s.pipeline t.pipeline ∧ m = newMember st m.key := by
  obtain ⟨task, job, p, hlookup, hjob, hadd, hm, rfl⟩ := entered
  obtain ⟨hserial, htask⟩ := giveAll_eq_ok hjob
  obtain ⟨growing, appended⟩ := h.growing.add rfl hserial
    (by rw [htask]; exact names.of_lookup hlookup) hadd
  have found := find_eq_ok_iff.1 hm
  exact ⟨⟨h.grow growing appended.extension, ⟨_, appended.keys⟩, m, found, rfl⟩, _,
    ⟨_, task, hlookup, hjob⟩, appended, Option.some.inj (found.symm.trans appended.member?)⟩

theorem OnTask.outputAt (h : OnTask m s) {slot : Nat} {d : Connector}
    (hd : m.outputs[slot]? = some d) : s.pipeline.outputAt m.key slot = .ok d := by
  obtain ⟨n, hn, hbare⟩ := h.held
  have hsame : n.connectors .output = m.connectors .output :=
    (congrArg (fun k : Member => k.connectors .output) hbare :)
  exact outputAt_eq_ok.2 ⟨n, hn, by rwa [Member.outputs, hsame]⟩

theorem connect_eq_ok {key : String} {slot : Nat} :
    s.connect o key slot = .ok (l, t) ↔ ∃ p,
      s.pipeline.connect o.key key (some o.slot) (some slot) = .ok (l, p) ∧
        t = { s with pipeline := p } := by
  unfold Reading.connect
  split
  · rename_i k p hk
    simp only [hk, pure_eq_ok, Except.ok.injEq, Prod.mk.injEq, and_assoc]
    constructor
    · rintro ⟨hl, ht⟩
      exact ⟨p, hl, rfl, ht.symm⟩
    · rintro ⟨_, hl, rfl, ht⟩
      exact ⟨hl, ht.symm⟩
  · rename_i r hr
    rw [hr]
    simp
  · rename_i e _ he
    rw [he]
    simp

theorem readLabel_eq_ok {key : String} {ref : PipeRef} :
    readLabel c key s ref = .ok t ↔ ∃ o l u, s.labels.lookup ref.label = some o ∧
      s.connect o key ref.slot = .ok (l, u) ∧ t = { u with
        branched := (u.branches.lookup ref.label).elim u.branched fun n =>
          keepBranch o (n, l) u.branched } := by
  unfold readLabel
  cases s.labels.lookup ref.label with
  | none => simp
  | some o =>
    simp only [bind_eq_ok, Prod.exists]
    constructor
    · rintro ⟨l, u, made, kept⟩
      refine ⟨o, l, u, rfl, made, ?_⟩
      split at kept
      · rename_i n bound
        rw [← pure_eq_ok.1 kept, bound, Option.elim_some]
      · rename_i bound
        rw [← pure_eq_ok.1 kept, bound, Option.elim_none]
    · rintro ⟨_, l, u, found, made, rfl⟩
      obtain rfl := Option.some.inj found
      refine ⟨l, u, made, ?_⟩
      cases u.branches.lookup ref.label <;> rfl

theorem fillInput_cases {strict : Bool} {key : String} {input : Connector}
    (filled : fillInput strict c key s input = .ok t) :
    (c.pipeAt? .input input.slot).isSome = true ∧ t = s ∨
    (c.pipeAt? .input input.slot).isSome = false ∧
      ((∃ o u l, s.takePending input.flow = some (o, u) ∧
          u.connect o key input.slot = .ok (l, t)) ∨
        s.takePending input.flow = none ∧ (input.required && strict) = false ∧ t = s) := by
  unfold fillInput at filled
  split at filled
  · rename_i labelled
    exact .inl ⟨labelled, (pure_eq_ok.1 filled).symm⟩
  · rename_i unlabelled
    refine .inr ⟨by simpa using unlabelled, ?_⟩
    split at filled
    · rename_i o u taken
      obtain ⟨⟨l, v⟩, made, rest⟩ := bind_eq_ok.1 filled
      obtain rfl := pure_eq_ok.1 rest
      exact .inl ⟨o, u, l, taken, made⟩
    · rename_i empty
      split at filled
      · simp at filled
      · rename_i lenient
        exact .inr ⟨empty, by simpa using lenient, (pure_eq_ok.1 filled).symm⟩

theorem OnTask.of_connect (h : OnTask m s) {slot : Nat}
    (made : s.connect o m.key slot = .ok (l, t)) :
    OnTask m t ∧ l ∉ s.pipeline.links ∧ t.pipeline.links = s.pipeline.links ++ [l] ∧
      t.branched = s.branched ∧ Joined m.key [slot] s.pipeline t.pipeline := by
  obtain ⟨p, hp, rfl⟩ := connect_eq_ok.1 made
  obtain ⟨old, last⟩ := h.last
  obtain ⟨growing, _, new, links, joined⟩ := h.growing.connect last hp
  refine ⟨⟨h.grow growing joined.extension, ⟨old, ?_⟩, ?_⟩, new, links, rfl, joined⟩
  · exact (keys_eq_of_frame joined.frame).trans last
  · obtain ⟨n, hn, hbare⟩ := h.held
    have := bare_eq_of_frame joined.frame m.key
    rw [hn, Option.map_some, Option.map_eq_some_iff] at this
    obtain ⟨k, hk, hkn⟩ := this
    exact ⟨k, hk, hkn.trans hbare⟩

theorem branched_keepBranch {links : List Link} {kept : List (Outlet × List (Nat × Link))}
    (h : ∀ e ∈ kept, (e.2.map Prod.snd).Nodup ∧ ∀ k ∈ e.2.map Prod.snd, k ∈ links)
    (new : l ∉ links) (o : Outlet) (branch : Nat) :
    ∀ e ∈ keepBranch o (branch, l) kept,
      (e.2.map Prod.snd).Nodup ∧ ∀ k ∈ e.2.map Prod.snd, k ∈ links ++ [l] := by
  induction kept with
  | nil => simp [keepBranch]
  | cons e r ih =>
    obtain ⟨first, rest⟩ := List.forall_mem_cons.1 h
    rw [keepBranch]
    split
    · refine List.forall_mem_cons.2 ⟨?_, fun d hd => ?_⟩
      · rw [List.map_append]
        refine ⟨List.nodup_append'.2 ⟨first.1, by simp, ?_⟩, fun k hk => ?_⟩
        · simpa using fun n hn => new (first.2 l (List.mem_map.2 ⟨(n, l), hn, rfl⟩))
        · exact (List.mem_append.1 hk).elim (fun hk => List.mem_append_left _ (first.2 k hk))
            (List.mem_append_right _)
      · exact ⟨(rest d hd).1, fun k hk => List.mem_append_left _ ((rest d hd).2 k hk)⟩
    · refine List.forall_mem_cons.2 ⟨⟨first.1, fun k hk => ?_⟩, ih rest⟩
      exact List.mem_append_left _ (first.2 k hk)

theorem OnTask.of_readLabel (h : OnTask m s) {ref : PipeRef}
    (read : readLabel c m.key s ref = .ok t) :
    OnTask m t ∧ Joined m.key [ref.slot] s.pipeline t.pipeline := by
  obtain ⟨o, l, u, _, made, rfl⟩ := readLabel_eq_ok.1 read
  obtain ⟨onTask, new, links, branched, joined⟩ := h.of_connect made
  refine ⟨⟨⟨onTask.growing, onTask.labels, onTask.pending, ?_⟩, onTask.last, onTask.held⟩, joined⟩
  cases bound : u.branches.lookup ref.label with
  | none => exact onTask.branched
  | some n =>
    change ∀ e ∈ keepBranch o (n, l) u.branched, _ ∧ ∀ k ∈ _, k ∈ u.pipeline.links
    rw [links, branched]
    exact branched_keepBranch h.branched new o n

theorem OnTask.of_fillInput (h : OnTask m s) {strict : Bool} {input : Connector}
    (filled : fillInput strict c m.key s input = .ok t) :
    OnTask m t ∧ (Joined m.key [input.slot] s.pipeline t.pipeline ∧
        (c.pipeAt? .input input.slot).isSome = false ∨
      t = s ∧ ((c.pipeAt? .input input.slot).isSome = true ∨
        (input.required && strict) = false)) := by
  rcases fillInput_cases filled with ⟨labelled, rfl⟩ | ⟨unlabelled, ⟨o, u, l, taken, made⟩ | stays⟩
  · exact ⟨h, .inr ⟨rfl, .inl labelled⟩⟩
  · obtain ⟨grounded, hp, _⟩ := h.of_takePending taken
    have onTask : OnTask m u := ⟨grounded, hp ▸ h.last, hp ▸ h.held⟩
    obtain ⟨onTask, _, _, _, joined⟩ := onTask.of_connect made
    exact ⟨onTask, .inl ⟨hp ▸ joined, unlabelled⟩⟩
  · obtain ⟨_, lenient, rfl⟩ := stays
    exact ⟨h, .inr ⟨rfl, .inr lenient⟩⟩

theorem OnTask.of_writeLabel (h : OnTask m s) {ref : PipeRef}
    (written : writeLabel m s ref = .ok t) :
    OnTask m t ∧ t.pipeline = s.pipeline := by
  unfold writeLabel at written
  split at written
  · rename_i hslot
    obtain rfl := pure_eq_ok.1 written
    have output := h.outputAt (List.getElem?_eq_getElem hslot)
    exact ⟨⟨h.put output ref.label _, h.last, h.held⟩, rfl⟩
  · simp at written

theorem OnTask.of_offerOutput (h : OnTask m s) {output : Connector} (ho : output ∈ m.outputs) :
    OnTask m (offerOutput c m.key s output) ∧
      (offerOutput c m.key s output).pipeline = s.pipeline := by
  unfold offerOutput
  split
  · exact ⟨h, rfl⟩
  · have open_ := h.reopen (o := ⟨m.key, output.slot⟩)
      (h.outputAt (Member.mem_connectors ho).2.2) 1
    exact ⟨⟨open_, h.last, h.held⟩, rfl⟩

end Reading

end Sluice
