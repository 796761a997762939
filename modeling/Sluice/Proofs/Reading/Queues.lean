import Sluice.Proofs.Reading.Scope

/-! Lines. Without adapters the outputs of a flow that have no labels wait in one line, in the order
of the text, and the inputs without labels take them from its front. What has come into the line is
at any time what has been served and what waits; an input goes without only when nothing waits. -/

namespace Sluice

namespace Reading

open Pipeline

variable {catalogue : Catalogue} {strict : Bool} {s t : Reading} {m : Member} {c : Command}
  {o : Outlet} {flow : Flow} {l : Link} {key : String}

inductive Event
  | offer : String × Side × Nat → Event
  | ask : String × Side × Nat → Event

namespace Event

def offered? : Event → Option (String × Side × Nat)
  | offer place => some place
  | ask _ => none

def asking? : Event → Option (String × Side × Nat)
  | offer _ => none
  | ask place => some place

end Event

def offers (trace : List Event) : List (String × Side × Nat) :=
  trace.filterMap Event.offered?

def asks (trace : List Event) : List (String × Side × Nat) :=
  trace.filterMap Event.asking?

@[simp] theorem offers_append (trace more : List Event) :
    offers (trace ++ more) = offers trace ++ offers more :=
  List.filterMap_append

@[simp] theorem asks_append (trace more : List Event) :
    asks (trace ++ more) = asks trace ++ asks more :=
  List.filterMap_append

@[simp] theorem offers_map_offer (ds : List Connector) :
    offers (ds.map fun d => .offer d.place) = ds.map Connector.place := by
  simp [offers, List.filterMap_map, Function.comp_def, Event.offered?]

@[simp] theorem offers_map_ask (ds : List Connector) :
    offers (ds.map fun d => .ask d.place) = [] := by
  simp [offers, List.filterMap_map, Function.comp_def, Event.offered?]

@[simp] theorem asks_map_ask (ds : List Connector) :
    asks (ds.map fun d => .ask d.place) = ds.map Connector.place := by
  simp [asks, List.filterMap_map, Function.comp_def, Event.asking?]

@[simp] theorem asks_map_offer (ds : List Connector) :
    asks (ds.map fun d => .offer d.place) = [] := by
  simp [asks, List.filterMap_map, Function.comp_def, Event.asking?]

structure Queued (trace : List Event) (served : List Link)
    (waiting : List (String × Side × Nat)) : Prop where
  line : offers trace = served.map (fun l => l.placeOn .output) ++ waiting
  turns : (served.map fun l => l.placeOn .input).Sublist (asks trace)
  starved : ∀ before i after, trace = before ++ .ask i :: after →
    i ∉ served.map (fun l => l.placeOn .input) → ∀ o ∈ offers before,
      ∃ l ∈ served, l.placeOn .output = o ∧ l.placeOn .input ∈ asks before

namespace Queued

variable {trace : List Event} {served : List Link} {waiting : List (String × Side × Nat)}

theorem nil : Queued [] [] [] :=
  ⟨rfl, .slnil, by simp⟩

theorem starved_before (h : Queued trace served waiting) {e : Event} {before after : List Event}
    {i : String × Side × Nat} (split : trace ++ [e] = before ++ .ask i :: after)
    (vain : i ∉ served.map fun l => l.placeOn .input) :
    (before = trace ∧ e = .ask i) ∨ ∀ o ∈ offers before,
      ∃ l ∈ served, l.placeOn .output = o ∧ l.placeOn .input ∈ asks before := by
  rcases List.eq_nil_or_concat after with rfl | ⟨after, last, rfl⟩
  · obtain ⟨rfl, rfl⟩ := List.append_singleton_inj.1 split
    exact .inl ⟨rfl, rfl⟩
  · rw [List.concat_eq_append, ← List.cons_append, ← List.append_assoc] at split
    obtain ⟨rfl, _⟩ := List.append_singleton_inj.1 split
    exact .inr (h.starved before i after rfl vain)

theorem offer (h : Queued trace served waiting) (o : String × Side × Nat) :
    Queued (trace ++ [.offer o]) served (waiting ++ [o]) where
  line := by
    rw [offers_append, ← List.append_assoc, ← h.line]
    rfl
  turns := by
    rw [asks_append]
    exact h.turns.trans (List.sublist_append_left _ _)
  starved before i after split vain :=
    (h.starved_before split vain).resolve_left fun last => nomatch last.2

theorem serve (h : Queued trace served (l.placeOn .output :: waiting)) :
    Queued (trace ++ [.ask (l.placeOn .input)]) (served ++ [l]) waiting where
  line := by
    rw [offers_append, List.map_append, List.append_assoc]
    exact (List.append_nil _).trans h.line
  turns := by
    rw [asks_append, List.map_append]
    exact h.turns.append (.refl _)
  starved before i after split vain := by
    rw [List.map_append, List.mem_append, not_or] at vain
    rcases h.starved_before split vain.1 with ⟨_, last⟩ | served
    · obtain rfl := Event.ask.inj last
      exact absurd (List.mem_singleton_self _) vain.2
    · intro o ho
      obtain ⟨k, hk, found⟩ := served o ho
      exact ⟨k, List.mem_append_left _ hk, found⟩

theorem starve (h : Queued trace served []) (i : String × Side × Nat) :
    Queued (trace ++ [.ask i]) served [] where
  line := by
    rw [offers_append, ← h.line]
    exact List.append_nil _
  turns := by
    rw [asks_append]
    exact h.turns.trans (List.sublist_append_left _ _)
  starved before j after split vain := by
    rcases h.starved_before split vain with ⟨rfl, _⟩ | served
    · intro o ho
      rw [h.line, List.append_nil, List.mem_map] at ho
      obtain ⟨k, hk, found⟩ := ho
      exact ⟨k, hk, found, h.turns.subset (List.mem_map_of_mem hk)⟩
    · exact served

end Queued

def waiting (pending : List (Flow × Outlet)) (flow : Flow) : List (String × Side × Nat) :=
  (pending.filter fun e => e.1 = flow).map fun e => (e.2.key, .output, e.2.slot)

theorem waiting_of_taken (taken : s.takePending flow = some (o, t)) :
    waiting s.pending flow = (o.key, .output, o.slot) :: waiting t.pending flow ∧
      ∀ other, other ≠ flow → waiting t.pending other = waiting s.pending other := by
  obtain ⟨⟨e, rest⟩, first, heq⟩ := Option.map_eq_some_iff.1 taken
  simp only [Prod.mk.injEq] at heq
  obtain ⟨rfl, rfl⟩ := heq
  obtain ⟨fits, before, after, pending, rfl, none⟩ := takeFirst_split first
  have fits := of_decide_eq_true fits
  have skipped : before.filter (fun e => e.1 = flow) = [] :=
    List.filter_eq_nil_iff.2 fun b hb => by simp [none b hb]
  refine ⟨?_, fun other different => ?_⟩
  · simp [waiting, pending, List.filter_append, skipped, fits]
  · have apart : e.1 ≠ other := fun same => different (same.symm.trans fits)
    simp [waiting, pending, List.filter_append, apart]

theorem waiting_of_none (none : s.takePending flow = none) : waiting s.pending flow = [] := by
  have fits := takeFirst_eq_none.1 (Option.map_eq_none_iff.1 none)
  rw [waiting, List.filter_eq_nil_iff.2 fun e he => by simp [fits e he], List.map_nil]

theorem waiting_offer (s : Reading) (flow : Flow) (o : Outlet) :
    waiting (s.offer flow o).pending flow =
      waiting s.pending flow ++ [(o.key, .output, o.slot)] := by
  simp [waiting, offer, List.filter_append]

theorem waiting_offer_of_ne {other : Flow} (different : flow ≠ other) (s : Reading) (o : Outlet) :
    waiting (s.offer flow o).pending other = waiting s.pending other := by
  simp [waiting, offer, List.filter_append, different]

def unlabelled (flow : Flow) (c : Command) (ds : List Connector) : List Connector :=
  ds.filter fun d => d.flow = flow && (c.pipeAt? d.side d.slot).isNone

theorem unlabelled_of_some {d : Connector} (labelled : (c.pipeAt? d.side d.slot).isSome = true)
    (flow : Flow) : unlabelled flow c [d] = [] := by
  obtain ⟨ref, found⟩ := Option.isSome_iff_exists.1 labelled
  simp [unlabelled, found]

theorem unlabelled_cons (c : Command) (d : Connector) (r : List Connector) (flow : Flow) :
    unlabelled flow c (d :: r) = unlabelled flow c [d] ++ unlabelled flow c r :=
  List.filter_append [d] r

def happens (flow : Flow) (e : Event) (other : Flow) : List Event :=
  if flow = other then [e] else []

@[simp] theorem happens_self (flow : Flow) (e : Event) : happens flow e flow = [e] :=
  if_pos rfl

theorem happens_of_ne {other : Flow} (different : flow ≠ other) (e : Event) :
    happens flow e other = [] :=
  if_neg different

theorem map_unlabelled_of_none {d : Connector}
    (none : (c.pipeAt? d.side d.slot).isSome = false) (event : Connector → Event) (flow : Flow) :
    (unlabelled flow c [d]).map event = happens d.flow (event d) flow := by
  rw [Option.isSome_eq_false_iff, Option.isNone_iff_eq_none] at none
  by_cases same : d.flow = flow <;> simp [unlabelled, happens, same, none]

structure Lined (labelled : String × Side × Nat → Prop) (trace : Flow → List Event)
    (served : Flow → List Link) (s : Reading) : Prop where
  queued : ∀ flow, Queued (trace flow) (served flow) (waiting s.pending flow)
  table : ∀ flow, ∀ l ∈ served flow, l ∈ s.pipeline.links
  links : ∀ l ∈ s.pipeline.links, (∃ flow, l ∈ served flow) ∨ ∀ side, labelled (l.placeOn side)
  labels : ∀ e ∈ s.labels, labelled (e.2.key, .output, e.2.slot)

namespace Lined

variable {labelled : String × Side × Nat → Prop} {trace : Flow → List Event}
  {served : Flow → List Link}

theorem start (labelled : String × Side × Nat → Prop) (name : Option String) :
    Lined labelled (fun _ => []) (fun _ => []) (Reading.start name) :=
  ⟨fun _ => .nil, by simp, by simp [Reading.start, Pipeline.new], by simp [Reading.start]⟩

theorem mono (h : Lined labelled trace served s) {more : String × Side × Nat → Prop}
    (sub : ∀ place, labelled place → more place) : Lined more trace served s :=
  ⟨h.queued, h.table, fun l hl => (h.links l hl).imp_right fun ends side => sub _ (ends side),
    fun e he => sub _ (h.labels e he)⟩

theorem congr (h : Lined labelled trace served s) (links : t.pipeline.links = s.pipeline.links)
    (labels : t.labels = s.labels) (pending : t.pending = s.pending) :
    Lined labelled trace served t where
  queued flow := by
    rw [pending]
    exact h.queued flow
  table flow l hl := links ▸ h.table flow l hl
  links := links ▸ h.links
  labels := labels ▸ h.labels

theorem serve (h : Lined labelled trace served s)
    (first : waiting s.pending flow = l.placeOn .output :: waiting t.pending flow)
    (others : ∀ other, other ≠ flow → waiting t.pending other = waiting s.pending other)
    (links : t.pipeline.links = s.pipeline.links ++ [l]) (labels : t.labels = s.labels) :
    Lined labelled (fun other => trace other ++ happens flow (.ask (l.placeOn .input)) other)
      (fun other => served other ++ if flow = other then [l] else []) t where
  queued other := by
    by_cases same : flow = other
    · subst same
      simpa using (first ▸ h.queued flow).serve
    · simpa [happens_of_ne same, same, others other (Ne.symm same)] using h.queued other
  table other k hk := by
    rw [links]
    rcases List.mem_append.1 hk with hk | hk
    · exact List.mem_append_left _ (h.table other k hk)
    · split at hk
      · exact List.mem_append_right _ hk
      · cases hk
  links k hk := by
    rw [links, List.mem_append, List.mem_singleton] at hk
    rcases hk with hk | rfl
    · exact (h.links k hk).imp_left fun found => found.imp fun _ => List.mem_append_left _
    · exact .inl ⟨flow, by simp⟩
  labels := labels ▸ h.labels

theorem starve (h : Lined labelled trace served s) (empty : waiting s.pending flow = [])
    (i : String × Side × Nat) :
    Lined labelled (fun other => trace other ++ happens flow (.ask i) other) served s := by
  refine ⟨fun other => ?_, h.table, h.links, h.labels⟩
  have line := h.queued other
  by_cases same : flow = other
  · subst same
    rw [empty] at line ⊢
    simpa using line.starve i
  · simpa [happens_of_ne same] using line

theorem offer (h : Lined labelled trace served s) (flow : Flow) (o : Outlet) :
    Lined labelled
      (fun other => trace other ++ happens flow (.offer (o.key, .output, o.slot)) other) served
      (s.offer flow o) := by
  refine ⟨fun other => ?_, h.table, h.links, h.labels⟩
  by_cases same : flow = other
  · subst same
    rw [waiting_offer]
    simpa using (h.queued flow).offer (o.key, .output, o.slot)
  · simpa [happens_of_ne same, waiting_offer_of_ne same] using h.queued other

theorem readLabel (h : Lined labelled trace served s) {ref : PipeRef}
    (input : labelled (key, .input, ref.slot)) (read : readLabel c key s ref = .ok t) :
    Lined labelled trace served t := by
  obtain ⟨o, l, u, bound, made, rfl⟩ := readLabel_eq_ok.1 read
  obtain ⟨rfl, links, _⟩ := links_connect made
  obtain ⟨p, _, rfl⟩ := connect_eq_ok.1 made
  have links : p.links = s.pipeline.links ++ [_] := links
  have output : labelled (o.key, .output, o.slot) :=
    h.labels (ref.label, o) (Table.mem_of_lookup bound)
  refine ⟨h.queued, fun flow l hl => ?_, fun l hl => ?_, h.labels⟩
  · exact links ▸ List.mem_append_left _ (h.table flow l hl)
  · rw [links, List.mem_append, List.mem_singleton] at hl
    rcases hl with hl | rfl
    · exact h.links l hl
    · refine .inr fun side => ?_
      cases side with
      | input => exact input
      | output => exact output

theorem fillInput (h : Lined labelled trace served s) {d : Connector}
    (place : d.place = (key, .input, d.slot)) (filled : fillInput strict c key s d = .ok t) :
    ∃ more, Lined labelled (fun flow => trace flow ++ (unlabelled flow c [d]).map (.ask ·.place))
      more t := by
  have side : d.side = .input := congrArg (fun place => place.2.1) place
  rcases fillInput_cases filled with ⟨some_, rfl⟩ | ⟨none, asked⟩
  · rw [← side] at some_
    exact ⟨served, by simpa [unlabelled_of_some some_] using h⟩
  · rw [← side] at none
    simp only [map_unlabelled_of_none none, place]
    rcases asked with ⟨o, u, l, taken, made⟩ | ⟨empty, _, rfl⟩
    · obtain ⟨first, others⟩ := waiting_of_taken taken
      obtain ⟨rest, rfl⟩ := takePending_rest taken
      obtain ⟨rfl, links, _⟩ := links_connect made
      obtain ⟨p, _, rfl⟩ := connect_eq_ok.1 made
      exact ⟨_, h.serve (l := ⟨o.key, o.slot, key, d.slot⟩) first others links rfl⟩
    · exact ⟨served, h.starve (waiting_of_none empty) _⟩

theorem writeLabel (h : Lined labelled trace served s) {ref : PipeRef}
    (output : labelled (m.key, .output, ref.slot)) (written : writeLabel m s ref = .ok t) :
    Lined labelled trace served t := by
  unfold Reading.writeLabel at written
  split at written
  · obtain rfl := pure_eq_ok.1 written
    refine ⟨h.queued, h.table, h.links, fun e he => ?_⟩
    rcases Table.mem_of_put he with rfl | he
    · exact output
    · exact h.labels e he
  · simp at written

theorem offerOutput (h : Lined labelled trace served s) {d : Connector}
    (place : d.place = (key, .output, d.slot)) :
    Lined labelled (fun flow => trace flow ++ (unlabelled flow c [d]).map (.offer ·.place)) served
      (offerOutput c key s d) := by
  have side : d.side = .output := congrArg (fun place => place.2.1) place
  unfold Reading.offerOutput
  split
  · rename_i some_
    rw [← side] at some_
    simpa [unlabelled_of_some some_] using h
  · rename_i none
    rw [Bool.not_eq_true, ← side] at none
    simp only [map_unlabelled_of_none none, place]
    exact h.offer d.flow ⟨key, d.slot⟩

theorem fillInputs (h : Lined labelled trace served s) {ds : List Connector}
    (places : ∀ d ∈ ds, d.place = (key, .input, d.slot))
    (run : ds.foldlM (Reading.fillInput strict c key) s = .ok t) :
    ∃ more, Lined labelled
      (fun flow => trace flow ++ (unlabelled flow c ds).map (.ask ·.place)) more t := by
  induction ds generalizing trace served s with
  | nil =>
    obtain rfl : s = t := by simpa using run
    exact ⟨served, by simpa [unlabelled] using h⟩
  | cons d r ih =>
    rw [List.foldlM_cons, bind_eq_ok] at run
    obtain ⟨u, first, rest⟩ := run
    obtain ⟨place, places⟩ := List.forall_mem_cons.1 places
    obtain ⟨_, h⟩ := h.fillInput place first
    obtain ⟨more, h⟩ := ih h places rest
    refine ⟨more, ?_⟩
    simpa only [unlabelled_cons c d r, List.map_append, List.append_assoc] using h

theorem offerOutputs (h : Lined labelled trace served s) {ds : List Connector}
    (places : ∀ d ∈ ds, d.place = (key, .output, d.slot)) :
    Lined labelled (fun flow => trace flow ++ (unlabelled flow c ds).map (.offer ·.place)) served
      (ds.foldl (Reading.offerOutput c key) s) := by
  induction ds generalizing trace s with
  | nil => simpa [unlabelled] using h
  | cons d r ih =>
    obtain ⟨place, places⟩ := List.forall_mem_cons.1 places
    rw [List.foldl_cons]
    simpa only [unlabelled_cons c d r, List.map_append, List.append_assoc] using
      ih (h.offerOutput (c := c) place) places

theorem readTask (h : Lined labelled trace served s) {u v : Reading}
    (places : ∀ side, ∀ d ∈ m.connectors side, d.place = (m.key, side, d.slot))
    (named : ∀ side, ∀ ref ∈ c.pipes side, labelled (m.key, side, ref.slot))
    (labels : c.inPipes.foldlM (Reading.readLabel c m.key) s = .ok t)
    (fills : m.inputs.foldlM (Reading.fillInput strict c m.key) t = .ok u)
    (writes : c.outPipes.foldlM (Reading.writeLabel m) u = .ok v) :
    ∃ more, Lined labelled
      (fun flow => trace flow ++ (unlabelled flow c m.inputs).map (.ask ·.place) ++
        (unlabelled flow c m.outputs).map (.offer ·.place)) more
      (m.outputs.foldl (Reading.offerOutput c m.key) v) := by
  have read := foldlM_keeps
    (fun ref mem _ _ h read => Lined.readLabel h (named .input ref mem) read) h labels
  obtain ⟨more, asked⟩ := read.fillInputs (places .input) fills
  have written := foldlM_keeps
    (fun ref mem _ _ h written => Lined.writeLabel h (named .output ref mem) written) asked writes
  exact ⟨more, written.offerOutputs (places .output)⟩

end Lined

def events (flow : Flow) (stations : List (Command × Member)) : List Event :=
  stations.flatMap fun x => (unlabelled flow x.1 x.2.inputs).map (.ask ·.place) ++
    (unlabelled flow x.1 x.2.outputs).map (.offer ·.place)

def HasLabel (stations : List (Command × Member)) (place : String × Side × Nat) : Prop :=
  ∃ x ∈ stations, x.2.key = place.1 ∧ (x.1.pipeAt? place.2.1 place.2.2).isSome = true

structure InLine (done : List Command) (s : Reading) : Prop where
  stations : done.length = s.pipeline.frame.length
  lined : ∃ served, Lined (HasLabel (done.zip s.pipeline.frame))
    (fun flow => events flow (done.zip s.pipeline.frame)) served s

variable {done : List Command} {name : Option String}

theorem InLine.start (name : Option String) : InLine [] (start name) :=
  ⟨rfl, _, .start _ name⟩

@[simp] theorem events_nil (flow : Flow) : events flow [] = [] :=
  rfl

theorem events_append (flow : Flow) (stations more : List (Command × Member)) :
    events flow (stations ++ more) = events flow stations ++ events flow more :=
  List.flatMap_append

theorem events_cons (flow : Flow) (x : Command × Member) (stations : List (Command × Member)) :
    events flow (x :: stations) = (unlabelled flow x.1 x.2.inputs).map (.ask ·.place) ++
      (unlabelled flow x.1 x.2.outputs).map (.offer ·.place) ++ events flow stations :=
  List.flatMap_cons

theorem offers_events (flow : Flow) (stations : List (Command × Member)) :
    offers (events flow stations) = (stations.flatMap fun x =>
      unlabelled flow x.1 (x.2.connectors .output)).map Connector.place := by
  induction stations with
  | nil => rfl
  | cons x r ih =>
    rw [events_cons, List.flatMap_cons, List.map_append, ← ih]
    simp [Member.outputs]

theorem asks_events (flow : Flow) (stations : List (Command × Member)) :
    asks (events flow stations) = (stations.flatMap fun x =>
      unlabelled flow x.1 (x.2.connectors .input)).map Connector.place := by
  induction stations with
  | nil => rfl
  | cons x r ih =>
    rw [events_cons, List.flatMap_cons, List.map_append, ← ih]
    simp [Member.inputs]

theorem HasLabel.of_mem {stations : List (Command × Member)} (station : (c, m) ∈ stations)
    (side : Side) {ref : PipeRef} (mem : ref ∈ c.pipes side) :
    HasLabel stations (m.key, side, ref.slot) :=
  ⟨_, station, rfl, pipeAt?_isSome_iff.2 (List.mem_map_of_mem mem)⟩

theorem frame_readTask {u labelled filled written : Reading}
    (labels : c.inPipes.foldlM (readLabel c m.key) u = .ok labelled)
    (fills : m.inputs.foldlM (fillInput strict c m.key) labelled = .ok filled)
    (writes : c.outPipes.foldlM (writeLabel m) filled = .ok written) :
    (m.outputs.foldl (offerOutput c m.key) written).pipeline.frame = u.pipeline.frame := by
  rw [pipeline_offerOutputs]
  refine foldlM_keeps (P := fun v => v.pipeline.frame = u.pipeline.frame)
    (fun _ _ v w hv hw => (frame_writeLabel hw).trans hv) ?_ writes
  refine foldlM_keeps (P := fun v => v.pipeline.frame = u.pipeline.frame)
    (fun _ _ v w hv hw => (frame_fillInput hw).trans hv) ?_ fills
  exact foldlM_keeps (P := fun v => v.pipeline.frame = u.pipeline.frame)
    (fun _ _ v w hv hw => (frame_readLabel hw).trans hv) rfl labels

theorem InLine.of_readTask (h : InLine done s) (grounded : s.Grounded)
    (names : catalogue.Unindented) (read : readTask catalogue strict s c = .ok t) :
    InLine (done ++ [c]) t := by
  obtain ⟨m, u, entered, labelled, labels, filled, fills, written, writes, rfl⟩ :=
    readTask_eq_ok.1 read
  obtain ⟨onTask, st, _, appended, hm⟩ := entered.onTask grounded names
  obtain ⟨served, lined⟩ := h.lined
  have id : m.id = m.key := onTask.growing.named m (by
    rw [appended.members, hm]
    exact List.mem_append_right _ (List.mem_singleton_self _))
  have frame : u.pipeline.frame = s.pipeline.frame ++ [m.bare] := by
    rw [Pipeline.frame, appended.members, List.map_append, hm]
    rfl
  have stations : (done ++ [c]).zip u.pipeline.frame =
      done.zip s.pipeline.frame ++ [(c, m.bare)] := by
    rw [frame, List.zip_append h.stations]
    rfl
  have before : Lined (HasLabel ((done ++ [c]).zip u.pipeline.frame))
      (fun flow => events flow (done.zip s.pipeline.frame)) served u := by
    obtain ⟨_, _, _, _, _, _, _, rfl⟩ := entered
    refine (lined.congr appended.links rfl rfl).mono fun place old => ?_
    obtain ⟨x, hx, found⟩ := old
    rw [stations]
    exact ⟨x, List.mem_append_left _ hx, found⟩
  obtain ⟨more, after⟩ := before.readTask (m := m) (c := c)
    (fun side d hd => id ▸ Member.place_of_mem hd)
    (fun side ref mem => HasLabel.of_mem (m := m.bare) (stations ▸ by simp) side mem)
    labels fills writes
  refine ⟨?_, more, ?_⟩
  · rw [frame_readTask labels fills writes, frame]
    simp [h.stations]
  · rw [frame_readTask labels fills writes]
    have trace (flow : Flow) : events flow ((done ++ [c]).zip u.pipeline.frame) =
        events flow (done.zip s.pipeline.frame) ++
          (unlabelled flow c m.inputs).map (.ask ·.place) ++
          (unlabelled flow c m.outputs).map (.offer ·.place) := by
      rw [stations, events_append, events_cons, events_nil, List.append_nil, ← List.append_assoc]
      rfl
    simp only [trace]
    exact after

theorem inLine_of_commands (names : catalogue.Unindented)
    (tasks : ∀ c ∈ done, c.namesTask = true)
    (run : done.foldlM (readCommand catalogue strict) (start name) = .ok s) : InLine done s := by
  induction done using List.reverseRecOn generalizing s with
  | nil =>
    obtain rfl : Reading.start name = s := by simpa using run
    exact .start name
  | append_singleton done c ih =>
    rw [List.foldlM_append, bind_eq_ok] at run
    obtain ⟨u, before, last⟩ := run
    have grounded : u.Grounded :=
      foldlM_keeps (fun _ _ _ _ h read => h.of_readCommand names read) (.start name) before
    have task : Flow.ofTee? c.name = none := by
      simpa [Command.namesTask] using tasks c (by simp)
    have last : readTask catalogue strict u c = .ok s := by
      simpa [readCommand, task] using last
    have lined := ih (fun c hc => tasks c (List.mem_append_left _ hc)) before
    exact lined.of_readTask grounded names last

end Reading

end Sluice
