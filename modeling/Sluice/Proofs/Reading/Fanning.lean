import Sluice.Proofs.Pipeline.Table
import Sluice.Proofs.Reading.Labels
import Sluice.Proofs.Reading.Ordering
import Sluice.Proofs.Reading.Scope

/-! The readers of an output. They come in the order in which their links are made, but for those
that read it through branches of adapters: these share out their positions by the numbers of the
branches. A label has the number of a branch as long as no task takes it over. -/

namespace Sluice

namespace Reading

open Pipeline

variable {catalogue : Catalogue} {strict : Bool} {s t : Reading} {m : Member} {c : Command}
  {o : Outlet} {flow : Flow} {l : Link} {name : Option String} {done : List Command}

/-- The number of the branch that has given a label its output, after some commands, the latest
first. A label that a task has given has none. -/
def branchOfLabel : List Command → String → Option Nat
  | [], _ => none
  | c :: before, label =>
    match c.outPipes.reverse.find? fun ref => ref.label = label with
    | none => branchOfLabel before label
    | some ref => if c.namesTask then none else some ref.slot

/-- The number of the branch that a link was made through: that of the label which its input had,
when the task there was read. `keys` are those of the stages in the order of the text. -/
def branchOfLink (keys : List String) : List Command → Link → Option Nat
  | [], _ => none
  | c :: before, l =>
    if c.namesTask = true ∧ keys[stagesOf before]? = some l.target then
      (c.inPipes.find? fun ref => ref.slot = l.targetSlot).bind fun ref =>
        branchOfLabel before ref.label
    else branchOfLink keys before l

theorem branchOfLink_of_task {keys : List String} {before : List Command}
    (names : c.namesTask = true) (target : keys[stagesOf before]? = some l.target) :
    branchOfLink keys (c :: before) l =
      (c.inPipes.find? fun ref => ref.slot = l.targetSlot).bind fun ref =>
        branchOfLabel before ref.label :=
  if_pos ⟨names, target⟩

theorem branchOfLink_of_ne {keys : List String} {before : List Command}
    (other : keys[stagesOf before]? ≠ some l.target) :
    branchOfLink keys (c :: before) l = branchOfLink keys before l :=
  if_neg fun h => other h.2

def outlet (l : Link) : Outlet :=
  ⟨l.source, l.sourceSlot⟩

def keepBranched (branch : Link → Option Nat) :
    List (Outlet × List (Nat × Link)) → Link → List (Outlet × List (Nat × Link)) :=
  keepEntry outlet fun l => (branch l).map fun n => (n, l)

theorem branches_bindBranches (o : Outlet) (refs : List PipeRef) (s : Reading) :
    (refs.foldl (bindBranch o) s).branches =
      refs.foldl (fun bs ref => Table.put ref.label ref.slot bs) s.branches := by
  induction refs generalizing s with
  | nil => rfl
  | cons ref r ih => exact ih (bindBranch o s ref)

theorem branches_connect {key : String} {slot : Nat} (made : s.connect o key slot = .ok (l, t)) :
    t.branches = s.branches := by
  obtain ⟨_, _, rfl⟩ := connect_eq_ok.1 made
  rfl

theorem branches_readLabel {key : String} {ref : PipeRef} (read : readLabel c key s ref = .ok t) :
    t.branches = s.branches := by
  obtain ⟨o, l, u, _, made, rfl⟩ := readLabel_eq_ok.1 read
  exact (branches_connect made :)

theorem branches_fillInput {key : String} {input : Connector}
    (filled : fillInput strict c key s input = .ok t) : t.branches = s.branches := by
  rcases fillInput_cases filled with ⟨_, rfl⟩ | ⟨_, ⟨o, u, l, taken, made⟩ | ⟨_, _, rfl⟩⟩
  · rfl
  · obtain ⟨rest, rfl⟩ := takePending_rest taken
    exact (branches_connect made :)
  · rfl

theorem branches_fillInputs {key : String} {ds : List Connector}
    (run : ds.foldlM (fillInput strict c key) s = .ok t) : t.branches = s.branches :=
  foldlM_keeps (P := fun v => v.branches = s.branches)
    (fun _ _ _ _ kept filled => (branches_fillInput filled).trans kept) rfl run

theorem branches_offerOutputs (outputs : List Connector) (key : String) (s : Reading) :
    (outputs.foldl (offerOutput c key) s).branches = s.branches := by
  induction outputs generalizing s with
  | nil => rfl
  | cons d r ih =>
    rw [List.foldl_cons, ih]
    unfold offerOutput
    split <;> rfl

theorem branches_writeLabels {refs : List PipeRef} (run : refs.foldlM (writeLabel m) s = .ok t)
    (label : String) : t.branches.lookup label =
      match refs.reverse.find? fun ref => ref.label = label with
      | none => s.branches.lookup label
      | some _ => none := by
  induction refs generalizing s with
  | nil =>
    obtain rfl : s = t := by simpa using run
    rfl
  | cons ref r ih =>
    rw [List.foldlM_cons, bind_eq_ok] at run
    obtain ⟨u, first, rest⟩ := run
    have first : u.branches = s.branches.filter fun e => e.1 ≠ ref.label := by
      unfold writeLabel at first
      split at first
      · rw [← pure_eq_ok.1 first]
      · simp at first
    rw [ih rest, first, lookup_filter_ne, List.reverse_cons, List.find?_append]
    cases later : r.reverse.find? fun ref => ref.label = label with
    | some found => rfl
    | none =>
      by_cases h : ref.label = label
      · simp [h]
      · simp [h, Ne.symm h]

theorem branches_readTask (read : readTask catalogue strict s c = .ok t) (label : String) :
    t.branches.lookup label =
      match c.outPipes.reverse.find? fun ref => ref.label = label with
      | none => s.branches.lookup label
      | some _ => none := by
  obtain ⟨m, u, entered, labelled, hl, filled, hf, written, hw, rfl⟩ := readTask_eq_ok.1 read
  obtain ⟨_, _, _, _, _, _, _, rfl⟩ := entered
  have labelling : labelled.branches = s.branches :=
    foldlM_keeps (P := fun v => v.branches = s.branches)
      (fun _ _ _ _ kept read => (branches_readLabel read).trans kept) rfl hl
  rw [branches_offerOutputs, branches_writeLabels hw, branches_fillInputs hf, labelling]

theorem branched_fillInputs {key : String} {ds : List Connector}
    (run : ds.foldlM (fillInput strict c key) s = .ok t) : t.branched = s.branched :=
  foldlM_keeps (P := fun v => v.branched = s.branched)
    (fun _ _ _ _ kept filled => (branched_fillInput filled).trans kept) rfl run

theorem branched_writeLabels {refs : List PipeRef} (run : refs.foldlM (writeLabel m) s = .ok t) :
    t.branched = s.branched :=
  foldlM_keeps (P := fun v => v.branched = s.branched)
    (fun _ _ _ _ kept written => (branched_writeLabel written).trans kept) rfl run

theorem branched_readLabel {branch : Link → Option Nat} {key : String} {ref : PipeRef}
    (number : ∀ l : Link, l.target = key → l.targetSlot = ref.slot →
      branch l = s.branches.lookup ref.label)
    (read : readLabel c key s ref = .ok t) : t.branches = s.branches ∧
      ∃ l, t.pipeline.links = s.pipeline.links ++ [l] ∧
        t.branched = keepBranched branch s.branched l := by
  obtain ⟨o, l, u, _, made, rfl⟩ := readLabel_eq_ok.1 read
  have branches := branches_connect made
  have kept := (connect_root made).1
  obtain ⟨rfl, links, _⟩ := links_connect made
  refine ⟨branches, _, links, ?_⟩
  rw [keepBranched, keepEntry, number _ rfl rfl, Option.elim_map, branches, kept]
  rfl

theorem branched_readLabels (branch : Link → Option Nat) {key : String} {refs : List PipeRef}
    (numbers : ∀ ref ∈ refs, ∀ l : Link, l.target = key → l.targetSlot = ref.slot →
      branch l = s.branches.lookup ref.label)
    (run : refs.foldlM (readLabel c key) s = .ok t) : t.branches = s.branches ∧
      ∃ new, t.pipeline.links = s.pipeline.links ++ new ∧
        t.branched = new.foldl (keepBranched branch) s.branched := by
  induction refs generalizing s with
  | nil =>
    obtain rfl : s = t := by simpa using run
    exact ⟨rfl, [], by simp⟩
  | cons ref r ih =>
    rw [List.foldlM_cons, bind_eq_ok] at run
    obtain ⟨u, first, rest⟩ := run
    obtain ⟨branches, l, links, kept⟩ :=
      branched_readLabel (numbers ref List.mem_cons_self) first
    obtain ⟨branches', new, links', kept'⟩ := ih (fun ref hr l target slot => by
      rw [numbers ref (List.mem_cons_of_mem _ hr) l target slot, branches]) rest
    refine ⟨branches'.trans branches, l :: new, ?_, ?_⟩
    · rw [links', links, List.append_assoc, List.singleton_append]
    · rw [kept', kept, List.foldl_cons]

theorem foldl_keepBranched_none {branch : Link → Option Nat} (links : List Link)
    (none : ∀ l ∈ links, branch l = none) (kept : List (Outlet × List (Nat × Link))) :
    links.foldl (keepBranched branch) kept = kept := by
  induction links with
  | nil => rfl
  | cons l r ih =>
    rw [List.foldl_cons, keepBranched, keepEntry, none l List.mem_cons_self]
    exact ih fun k hk => none k (List.mem_cons_of_mem _ hk)

theorem foldl_keepBranched_congr {branch other : Link → Option Nat} {links : List Link}
    (same : ∀ l ∈ links, branch l = other l) (kept : List (Outlet × List (Nat × Link))) :
    links.foldl (keepBranched branch) kept = links.foldl (keepBranched other) kept :=
  List.foldl_ext _ _ _ fun kept l hl => by
    rw [keepBranched, keepBranched, keepEntry, keepEntry, same l hl]

theorem inOrder_connect {key : String} {slot : Nat} (made : s.connect o key slot = .ok (l, t))
    (h : s.pipeline.InOrder) : t.pipeline.InOrder := by
  obtain ⟨p, hp, rfl⟩ := connect_eq_ok.1 made
  obtain ⟨hl, rfl⟩ := Pipeline.connect_eq_ok.1 hp
  obtain ⟨_, _, allowed⟩ := allowed_of_ok hl
  exact h.link allowed.fits

theorem inOrder_readLabel {key : String} {ref : PipeRef} (h : s.pipeline.InOrder)
    (read : readLabel c key s ref = .ok t) : t.pipeline.InOrder := by
  obtain ⟨o, l, u, _, made, rfl⟩ := readLabel_eq_ok.1 read
  exact (inOrder_connect made h :)

theorem inOrder_fillInput {key : String} {input : Connector} (h : s.pipeline.InOrder)
    (filled : fillInput strict c key s input = .ok t) : t.pipeline.InOrder := by
  rcases fillInput_cases filled with ⟨_, rfl⟩ | ⟨_, ⟨o, u, l, taken, made⟩ | ⟨_, _, rfl⟩⟩
  · exact h
  · obtain ⟨rest, rfl⟩ := takePending_rest taken
    exact inOrder_connect made h
  · exact h

theorem inOrder_entered (h : s.pipeline.InOrder) {st : Stage} {key : String}
    (appended : Appended st key s.pipeline t.pipeline) : t.pipeline.InOrder := by
  refine h.of_eq appended.links ?_
  have lists := linksOn_newMember st appended.fresh
  rw [← lists]
  funext k side
  simp only [linksOn, Pipeline.member?, appended.members]

theorem inOrder_readTask (h : s.pipeline.InOrder) (grounded : s.Grounded)
    (names : catalogue.Unindented) (read : readTask catalogue strict s c = .ok t) :
    t.pipeline.InOrder := by
  obtain ⟨m, u, entered, labelled, hl, filled, hf, written, hw, rfl⟩ := readTask_eq_ok.1 read
  obtain ⟨onTask, _, _, appended, _⟩ := entered.onTask grounded names
  obtain ⟨_, same⟩ := ((onTask.readLabels (.ends hl)).fillInputs (.ends hf)).writeLabels (.ends hw)
  rw [pipeline_offerOutputs, same]
  refine foldlM_keeps (P := fun v => v.pipeline.InOrder)
    (fun _ _ _ _ h filled => inOrder_fillInput h filled) ?_ hf
  exact foldlM_keeps (P := fun v => v.pipeline.InOrder)
    (fun _ _ _ _ h read => inOrder_readLabel h read) (inOrder_entered h appended) hl

structure Fanned (done : List Command) (s : Reading) : Prop where
  inOrder : s.pipeline.InOrder
  branches : ∀ label, s.branches.lookup label = branchOfLabel done.reverse label
  branched : ∀ keys, s.pipeline.keys <+: keys → s.branched =
    s.pipeline.links.foldl (keepBranched (branchOfLink keys done.reverse)) []

theorem Fanned.start (name : Option String) : Fanned [] (start name) where
  inOrder := (Built.new name).inOrder
  branches _ := rfl
  branched _ _ := rfl

theorem Fanned.of_readTee (h : Fanned done s) (tee : Flow.ofTee? c.name = some flow)
    (read : readTee flow s c = .ok t) : Fanned (done ++ [c]) t := by
  have names : c.namesTask = false := by simp [Command.namesTask, tee]
  have same := pipeline_readTee read
  obtain ⟨_, o, u, _, _, found, _, _, rfl⟩ := readTee_eq_ok.1 read
  obtain ⟨rest, rfl⟩ := copied_rest found
  have reverse : (done ++ [c]).reverse = c :: done.reverse := by simp
  refine ⟨?_, fun label => ?_, fun keys sub => ?_⟩
  · rw [same]
    exact h.inOrder
  · change (c.outPipes.foldl (bindBranch o) _).branches.lookup label = _
    rw [branches_bindBranches, lookup_puts, reverse, branchOfLabel, h.branches]
    cases c.outPipes.reverse.find? fun ref => ref.label = label with
    | none => rfl
    | some ref => simp [names]
  · have later : branchOfLink keys (c :: done.reverse) = branchOfLink keys done.reverse := by
      funext l
      simp [branchOfLink, names]
    rw [reverse, later, same, ← h.branched keys (same ▸ sub)]
    exact branched_bindBranches c.outPipes _

theorem slots_nodup (h : s.Grounded) (names : catalogue.Unindented)
    (entered : Entered catalogue s c m t) {u : Reading}
    (run : c.inPipes.foldlM (readLabel c m.key) t = .ok u) :
    (c.inPipes.map PipeRef.slot).Nodup := by
  obtain ⟨onTask, joined⟩ := (entered.onTask h names).1.joined_readLabels run
  obtain ⟨new, links, slots, targets⟩ := joined.links
  have sound := onTask.growing.sound
  have nodup : new.Nodup := (List.nodup_append'.1 (links ▸ sound.links_nodup)).2.1
  rw [← slots, List.nodup_map_iff_inj_on nodup]
  intro k hk l hl same
  have inside : ∀ j ∈ new, j ∈ u.pipeline.links := fun j hj => by simp [links, hj]
  refine sound.eq_of_target onTask.growing.named (inside k hk) (inside l hl) ?_
  rw [Link.placeOn, Link.placeOn, Link.endOn, Link.endOn, Link.slotOn, Link.slotOn, targets k hk,
    targets l hl, same]

theorem find?_slot {refs : List PipeRef} (nodup : (refs.map PipeRef.slot).Nodup) {ref : PipeRef}
    (mem : ref ∈ refs) : refs.find? (fun other => other.slot = ref.slot) = some ref := by
  obtain ⟨found, hfound⟩ := Option.isSome_iff_exists.1
    (List.find?_isSome (p := fun other => decide (other.slot = ref.slot)) |>.2
      ⟨ref, mem, decide_eq_true rfl⟩)
  have same : found.slot = ref.slot := by simpa using List.find?_some hfound
  rwa [List.inj_on_of_nodup_map nodup (List.mem_of_find?_eq_some hfound) mem same] at hfound

theorem Fanned.of_readTask (h : Fanned done s) (grounded : s.Grounded)
    (stages : s.pipeline.keys.length = stagesOf done) (names : catalogue.Unindented)
    (task : Flow.ofTee? c.name = none) (read : readTask catalogue strict s c = .ok t) :
    Fanned (done ++ [c]) t := by
  have namesTask : c.namesTask = true := by simp [Command.namesTask, task]
  have reverse : (done ++ [c]).reverse = c :: done.reverse := by simp
  refine ⟨inOrder_readTask h.inOrder grounded names read, fun label => ?_, fun keys sub => ?_⟩
  · rw [branches_readTask read, reverse, branchOfLabel, h.branches]
    simp only [namesTask, if_true]
  · obtain ⟨m, u, entered, labelled, hl, filled, hf, written, hw, rfl⟩ := readTask_eq_ok.1 read
    obtain ⟨onTask, st, _, appended, _⟩ := entered.onTask grounded names
    have nodup := slots_nodup grounded names entered hl
    obtain ⟨onTask, joined⟩ := onTask.joined_readLabels hl
    obtain ⟨onTask, _, joined', _⟩ := onTask.joined_fillInputs hf
    obtain ⟨_, same⟩ := onTask.writeLabels (.ends hw)
    obtain ⟨_, added, links', unlabelled⟩ := links_fillInputs hf
    have start : u.branches = s.branches ∧ u.branched = s.branched := by
      obtain ⟨_, _, _, _, _, _, _, rfl⟩ := entered
      exact ⟨rfl, rfl⟩
    rw [pipeline_offerOutputs, same, keys_eq_of_frame (joined'.frame.trans joined.frame),
      appended.keys] at sub
    have target : keys[stagesOf done.reverse]? = some m.key := by
      obtain ⟨later, rfl⟩ := sub
      simp [stagesOf_reverse, ← stages]
    have here : ∀ l : Link, l.target = m.key → branchOfLink keys (c :: done.reverse) l =
        (c.inPipes.find? fun ref => ref.slot = l.targetSlot).bind fun ref =>
          branchOfLabel done.reverse ref.label := fun l hl =>
      branchOfLink_of_task namesTask (hl ▸ target)
    have before : ∀ l ∈ s.pipeline.links, branchOfLink keys (c :: done.reverse) l =
        branchOfLink keys done.reverse l := fun l hl => by
      have old : m.key ≠ l.target := fun heq =>
        appended.fresh (heq ▸ (grounded.growing.sound.fits l hl).mem_keys .input)
      exact branchOfLink_of_ne fun there => old (Option.some.inj (target.symm.trans there))
    obtain ⟨_, new, links, kept⟩ := branched_readLabels
      (branchOfLink keys (c :: done.reverse)) (fun ref mem l hl slot => by
        rw [here l hl, slot, find?_slot nodup mem, Option.bind_some, start.1, h.branches]) hl
    rw [branched_offerOutputs, branched_writeLabels hw, branched_fillInputs hf, kept, start.2,
      pipeline_offerOutputs, same, links', links, appended.links, reverse, List.foldl_append,
      List.foldl_append, foldl_keepBranched_none added fun l hl => ?_,
      foldl_keepBranched_congr before, ← h.branched keys ((List.prefix_append _ _).trans sub)]
    rw [here l (unlabelled l hl).1, List.find?_eq_none.2 fun ref mem => ?_, Option.bind_none]
    simpa using (unlabelled l hl).2 ref mem

theorem fanned_of_commands (names : catalogue.Unindented)
    (run : done.foldlM (readCommand catalogue strict) (start name) = .ok s) : Fanned done s := by
  induction done using List.reverseRecOn generalizing s with
  | nil =>
    obtain rfl : start name = s := by simpa using run
    exact .start name
  | append_singleton done c ih =>
    rw [List.foldlM_append, bind_eq_ok] at run
    obtain ⟨u, before, last⟩ := run
    have last : readCommand catalogue strict u c = .ok s := by simpa using last
    have grounded : u.Grounded :=
      foldlM_keeps (fun _ _ _ _ h read => h.of_readCommand names read) (.start name) before
    unfold readCommand at last
    cases tee : Flow.ofTee? c.name with
    | some flow =>
      simp only [tee] at last
      exact (ih before).of_readTee tee last
    | none =>
      simp only [tee] at last
      exact (ih before).of_readTask grounded (scoped_of_commands names before).stages names tee last

theorem outlet_eq_iff {key : String} {slot : Nat} :
    outlet l = ⟨key, slot⟩ ↔ l.placeOn .output = (key, .output, slot) := by
  simp [outlet, Link.placeOn, Link.endOn, Link.slotOn]

def branchedFrom (done : List Command) (p : Pipeline) (key : String) (slot : Nat) :
    List (Nat × Link) :=
  branchEntries (branchOfLink p.keys done.reverse)
    (p.links.filter fun l => l.placeOn .output = (key, .output, slot))

theorem mem_branchedFrom {p : Pipeline} {slot : Nat} {e : Nat × Link}
    (he : e ∈ branchedFrom done p key slot) :
    e.2 ∈ p.links ∧ e.2.placeOn .output = (key, .output, slot) := by
  simpa using (mem_branchEntries.1 he).1

theorem entriesAt_eq (done : List Command) (p : Pipeline) (key : String) (slot : Nat) :
    entriesAt outlet (fun l => (branchOfLink p.keys done.reverse l).map fun n => (n, l)) p.links
      ⟨key, slot⟩ = branchedFrom done p key slot := by
  rw [entriesAt, branchedFrom, branchEntries, List.filterMap_filter]
  refine List.filterMap_congr fun l _ => ?_
  simp only [outlet_eq_iff, decide_eq_true_eq]

theorem Fanned.kept (h : Fanned done s) : (s.branched.map Prod.fst).Nodup ∧
    ∀ key slot, s.branched.lookup ⟨key, slot⟩ =
      if branchedFrom done s.pipeline key slot = [] then none
      else some (branchedFrom done s.pipeline key slot) := by
  obtain ⟨nodup, lookup⟩ := keepEntries_eq outlet
    (fun l => (branchOfLink s.pipeline.keys done.reverse l).map fun n => (n, l)) s.pipeline.links
  rw [h.branched s.pipeline.keys (List.prefix_refl _)]
  refine ⟨nodup, fun key slot => ?_⟩
  rw [← entriesAt_eq]
  exact lookup ⟨key, slot⟩

theorem Fanned.kept_inside (h : Fanned done s) (grounded : s.Grounded)
    {e : Outlet × List (Nat × Link)} (he : e ∈ s.branched) :
    (∃ c, s.pipeline.outputAt e.1.key e.1.slot = .ok c) ∧ (e.2.map (·.2)).Nodup ∧
      ∀ l ∈ e.2.map (·.2), l ∈ s.pipeline.linksAmong (e.1.key, .output, e.1.slot) none := by
  have sound := grounded.growing.sound
  obtain ⟨nodup, lookup⟩ := h.kept
  obtain ⟨⟨key, slot⟩, entries⟩ := e
  have found := Table.lookup_of_mem nodup he
  rw [lookup] at found
  split at found
  · cases found
  rename_i nonempty
  obtain rfl := Option.some.inj found
  refine ⟨?_, (grounded.branched _ he).1, fun l hl => ?_⟩
  · obtain ⟨x, hx⟩ := List.exists_mem_of_ne_nil _ nonempty
    obtain ⟨hl, place⟩ := mem_branchedFrom hx
    obtain ⟨_, c, _, output, _⟩ := sound.fits x.2 hl
    simp only [Link.placeOn, Link.endOn, Link.slotOn, Prod.mk.injEq, true_and] at place
    exact ⟨c, place.1 ▸ place.2 ▸ output⟩
  · obtain ⟨x, hx, rfl⟩ := List.mem_map.1 hl
    rw [sound.mem_linksAmong]
    exact ⟨mem_branchedFrom hx, rfl⟩

theorem linksAmong_of_inOrder {p : Pipeline} (h : p.InOrder) (key : String) (slot : Nat) :
    p.linksAmong (key, .output, slot) none =
      p.links.filter fun l => l.placeOn .output = (key, .output, slot) := by
  simp only [linksAmong, within, h key .output, List.filter_filter]
  refine List.filter_congr fun l _ => ?_
  rw [Bool.eq_iff_iff]
  simp [Link.placeOn, and_comm]

theorem Fanned.finish (h : Fanned done s) (grounded : s.Grounded) {q : Pipeline}
    (finished : s.finish = .ok q) : q.Sound ∧ q.Named ∧ ∀ c : Connector, c.side = .output →
      Branching (branchOfLink q.keys done.reverse)
        (q.links.filter fun l => l.placeOn .output = c.place) (q.linksAt c) := by
  rw [grounded.finish_eq, step_eq_ok] at finished
  obtain ⟨nodup, lookup⟩ := h.kept
  obtain ⟨r, run, sound, frame, links, _, shared⟩ := orderBranches_each grounded.growing.sound
    grounded.growing.named nodup fun e he => h.kept_inside grounded he
  obtain rfl : r = q := Except.ok.inj (run.symm.trans finished)
  refine ⟨sound, grounded.growing.named.of_frame frame, fun c side => .of_sharedOut ?_⟩
  have here := shared c.stage c.slot
  have place : c.place = (c.stage, .output, c.slot) := by rw [Connector.place, side]
  rw [linksAmong_of_inOrder h.inOrder, lookup] at here
  rw [keys_eq_of_frame frame, links, ← linksAmong_none, place]
  split at here
  · rename_i empty
    rw [branchedFrom] at empty
    rw [empty, inBranchOrder_nil]
    exact here
  · exact here

end Reading

namespace Reader

open Pipeline Reading

variable {r : Reader} {text : String} {name : Option String}

/-- The readers of an output come in the order in which their links are made, but for those that
read it through branches of adapters: on the positions that these have among all of them they stand
in the order of the branches, and of one branch in the order of their links. -/
theorem fans_out_in_order (names : r.catalogue.Unindented) {q : Pipeline}
    (read : r.read text name = .ok q) : ∃ commands, CommandLine.read r.marker text = .ok commands ∧
      ∀ m ∈ q.members, ∀ o ∈ m.outputs, ∃ ps, q.peers o none = .ok ps ∧
        ps.map Connector.place = (q.linksAt o).map (fun l => l.placeOn .input) ∧
        Branching (branchOfLink q.keys commands.reverse)
          (q.links.filter fun l => l.placeOn .output = o.place) (q.linksAt o) := by
  unfold Reader.read at read
  split at read
  · rename_i commands found
    obtain ⟨s, run, finished⟩ := bind_eq_ok.1 read
    have grounded := grounded_of_passes names (.ends run)
    obtain ⟨sound, named, branching⟩ :=
      (fanned_of_commands names.orBundled run).finish grounded finished
    refine ⟨commands, found, fun m hm o ho => ?_⟩
    have side := (Member.mem_connectors ho).2.1
    obtain ⟨ps, hps, places⟩ := sound.peers_eq named o none
    rw [linksAmong_none, side] at places
    exact ⟨ps, hps, places, branching o side⟩
  · simp at read

def crossed : String :=
  "--rx outPipe.0=A --tee inPipe.0=A outPipe.0=B outPipe.1=C --wx inPipe.0=C --wx inPipe.0=B"

theorem crossed_fans_out : ∃ q, Reader.read ⟨Catalogue.bundled, "\\", false⟩ crossed none = .ok q ∧
    ∃ commands, CommandLine.read "\\" crossed = .ok commands ∧
      ∀ m ∈ q.members, ∀ o ∈ m.outputs, ∃ ps, q.peers o none = .ok ps ∧
        ps.map Connector.place = (q.linksAt o).map (fun l => l.placeOn .input) ∧
        Branching (branchOfLink q.keys commands.reverse)
          (q.links.filter fun l => l.placeOn .output = o.place) (q.linksAt o) := by
  have names := Catalogue.bundled_unindented
  -- Sorting is not computed here: the end of the reading succeeds in any case.
  obtain ⟨s, run, _⟩ : ∃ s, (CommandLine.commands "\\" crossed).foldlM
      (readCommandBy Text.wholeNumber? Catalogue.bundled.orBundled false) (start none) = .ok s ∧
      s.branched = [(⟨"read-xml_0", 0⟩, [(1, ⟨"read-xml_0", 0, "write-xml_1", 0⟩),
        (0, ⟨"read-xml_0", 0, "write-xml_2", 0⟩)])] := by decide +kernel
  obtain ⟨q, finished⟩ := (rooted_of_passes (r := ⟨Catalogue.bundled, "\\", false⟩) names
    (.ends run)).exists_finish
  have read : Reader.read ⟨Catalogue.bundled, "\\", false⟩ crossed none = .ok q := by
    rw [read_eq, show CommandLine.overlong? "\\" crossed = none by decide +kernel]
    exact bind_eq_ok.2 ⟨s, run, finished⟩
  exact ⟨q, read, fans_out_in_order (r := ⟨Catalogue.bundled, "\\", false⟩) names read⟩

end Reader

end Sluice
