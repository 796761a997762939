import Sluice.Proofs.Reading.Refusals

/-! What becomes of a command line. It is read, or refused with a message: nothing else goes wrong,
since labels and open outputs lead to outputs of members at any time, new members get in, and the
links kept for branches stand where they are put in order. Only numbers with too many digits are
another matter, so that here numbers may be read in any way. -/

namespace Sluice

namespace Reading

open Pipeline ReadError

variable {catalogue : Catalogue} {strict : Bool} {whole : String → Option Int} {s t : Reading}
  {m : Member} {c : Command} {o : Outlet} {flow : Flow} {l : Link}

def Roots (e : Outlet × List (Nat × Link)) : Prop :=
  e.2 ≠ [] ∧ ∀ x ∈ e.2, x.2.source = e.1.key ∧ x.2.sourceSlot = e.1.slot

theorem roots_keepBranch {kept : List (Outlet × List (Nat × Link))} (h : ∀ e ∈ kept, Roots e)
    (hl : l.source = o.key ∧ l.sourceSlot = o.slot) (branch : Nat) :
    ∀ e ∈ keepBranch o (branch, l) kept, Roots e := by
  induction kept with
  | nil =>
    simp only [keepBranch, List.mem_singleton, forall_eq, Roots]
    exact ⟨by simp, by simpa using hl⟩
  | cons e r ih =>
    obtain ⟨first, rest⟩ := List.forall_mem_cons.1 h
    rw [keepBranch]
    split
    · rename_i heq
      refine List.forall_mem_cons.2 ⟨⟨by simp, fun x hx => ?_⟩, rest⟩
      rcases List.mem_append.1 hx with hx | hx
      · exact first.2 x hx
      · obtain rfl := List.mem_singleton.1 hx
        exact heq ▸ hl
    · exact List.forall_mem_cons.2 ⟨first, ih rest⟩

theorem exists_orderBranches {p : Pipeline} (growing : p.Growing) {e : Outlet × List (Nat × Link)}
    (roots : Roots e) (inside : ∀ l ∈ e.2.map Prod.snd, l ∈ p.links) :
    ∃ q, orderBranches p e = .ok q := by
  obtain ⟨x, hx⟩ := List.exists_mem_of_ne_nil _ roots.1
  obtain ⟨_, d, _, output, _⟩ := growing.sound.fits x.2 (inside x.2 (List.mem_map_of_mem hx))
  rw [(roots.2 x hx).1, (roots.2 x hx).2] at output
  obtain ⟨hkeys, hplace⟩ := place_of_outputAt growing.named output
  simp only [Connector.place, Prod.mk.injEq] at hplace
  obtain ⟨hstage, hside, hslot⟩ := hplace
  refine ⟨_, bind_eq_ok.2 ⟨d, output, reorder_eq_ok.2 ⟨⟨hkeys, fun l hl => ?_⟩, rfl⟩⟩⟩
  obtain ⟨y, hy, rfl⟩ := List.mem_map.1 hl
  have hy := List.mem_mergeSort.1 hy
  rw [hstage, hside, hslot, growing.sound.mem_linksOn]
  exact ⟨⟨inside y.2 (List.mem_map_of_mem hy), (roots.2 y hy).1⟩, (roots.2 y hy).2⟩

structure Rooted (s : Reading) : Prop extends Grounded s where
  roots : ∀ e ∈ s.branched, Roots e

namespace Rooted

theorem start (name : Option String) : (Reading.start name).Rooted :=
  ⟨.start name, by simp [Reading.start]⟩

theorem exists_order (h : s.Rooted) :
    ∃ p, s.branched.foldlM orderBranches s.pipeline = .ok p := by
  -- Putting one output in order leaves the table of links alone, where the others have theirs.
  have fails : FailsBy (fun _ => False) (s.branched.foldlM orderBranches s.pipeline) := by
    refine .foldlM (P := fun p => p.Growing ∧ p.links = s.pipeline.links) (fun e he p hp => ?_)
      (fun e he p q hp hq => ?_) ⟨h.growing, rfl⟩
    · obtain ⟨growing, links⟩ := hp
      exact .of_ok (exists_orderBranches growing (h.roots e he) (links ▸ (h.branched e he).2))
    · obtain ⟨growing, _, links⟩ := orderBranches_keeps hp.1 (h.branched e he).1 hq
      exact ⟨growing, links.trans hp.2⟩
  exact fails.exists_ok

end Rooted

theorem connect_root {key : String} {slot : Nat} (made : s.connect o key slot = .ok (l, t)) :
    t.branched = s.branched ∧ l.source = o.key ∧ l.sourceSlot = o.slot := by
  obtain ⟨p, hp, rfl⟩ := connect_eq_ok.1 made
  obtain rfl := eq_of_allowedLink (Pipeline.connect_eq_ok.1 hp).1
  exact ⟨rfl, rfl, rfl⟩

theorem branched_fillInput {key : String} {input : Connector}
    (filled : fillInput strict c key s input = .ok t) : t.branched = s.branched := by
  rcases fillInput_cases filled with ⟨_, rfl⟩ | ⟨_, ⟨o, u, l, taken, made⟩ | ⟨_, _, rfl⟩⟩
  · rfl
  · obtain ⟨rest, rfl⟩ := takePending_rest taken
    exact (connect_root made).1
  · rfl

theorem branched_writeLabel {ref : PipeRef} (written : writeLabel m s ref = .ok t) :
    t.branched = s.branched := by
  unfold writeLabel at written
  split at written
  · rw [← pure_eq_ok.1 written]
  · simp at written

theorem branched_offerOutputs (outputs : List Connector) (key : String) (s : Reading) :
    (outputs.foldl (offerOutput c key) s).branched = s.branched := by
  induction outputs generalizing s with
  | nil => rfl
  | cons d r ih =>
    rw [List.foldl_cons, ih]
    unfold offerOutput
    split <;> rfl

theorem branched_bindBranches (refs : List PipeRef) (s : Reading) :
    (refs.foldl (bindBranch o) s).branched = s.branched := by
  induction refs generalizing s with
  | nil => rfl
  | cons ref r ih => exact ih (bindBranch o s ref)

theorem roots_readLabel {key : String} {ref : PipeRef} (h : ∀ e ∈ s.branched, Roots e)
    (read : readLabel c key s ref = .ok t) : ∀ e ∈ t.branched, Roots e := by
  obtain ⟨o, l, u, _, made, rfl⟩ := readLabel_eq_ok.1 read
  obtain ⟨same, root⟩ := connect_root made
  rw [← same] at h
  cases bound : u.branches.lookup ref.label with
  | none => exact h
  | some n => exact roots_keepBranch h root n

def readCommandBy (whole : String → Option Int) (catalogue : Catalogue) (strict : Bool)
    (s : Reading) (c : Command) : Except ReadError Reading :=
  match Flow.ofTee? c.name with
  | some flow => copiesBy whole c >>= copyTo flow s c
  | none => readTask catalogue strict s c

theorem readCommandBy_wholeNumber? : readCommandBy Text.wholeNumber? = readCommand := rfl

namespace Rooted

theorem of_copyTo (h : s.Rooted) {count : Nat} (copied : copyTo flow s c count = .ok t) :
    t.Rooted := by
  obtain ⟨⟨o, u⟩, found, rest⟩ := bind_eq_ok.1 copied
  obtain ⟨d, output, rest⟩ := bind_eq_ok.1 rest
  have output := step_eq_ok.1 output
  obtain ⟨grounded, same⟩ := (h.of_copied found).1.bindBranches output c.outPipes
  dsimp only at rest
  split at rest
  · simp at rest
  · rename_i hflow
    obtain rfl := pure_eq_ok.1 rest
    obtain rfl := not_not.1 hflow
    refine ⟨grounded.reopen (same ▸ output) _, ?_⟩
    change ∀ e ∈ (c.outPipes.foldl (bindBranch o) u).branched, Roots e
    obtain ⟨rest, rfl⟩ := copied_rest found
    rw [branched_bindBranches]
    exact h.roots

theorem of_readTask (h : s.Rooted) (names : catalogue.Unindented)
    (read : readTask catalogue strict s c = .ok t) : t.Rooted := by
  refine ⟨(TaskMeets.ends read).keeps h.toGrounded names, ?_⟩
  obtain ⟨m, u, ⟨_, _, _, _, _, _, _, rfl⟩, labelled, hl, filled, hf, written, hw, rfl⟩ :=
    readTask_eq_ok.1 read
  rw [branched_offerOutputs]
  refine foldlM_keeps (P := fun v => ∀ e ∈ v.branched, Roots e)
    (fun _ _ v w hv hw => branched_writeLabel hw ▸ hv) ?_ hw
  refine foldlM_keeps (P := fun v => ∀ e ∈ v.branched, Roots e)
    (fun _ _ v w hv hw => branched_fillInput hw ▸ hv) ?_ hf
  exact foldlM_keeps (P := fun v => ∀ e ∈ v.branched, Roots e)
    (fun _ _ v w hv hw => roots_readLabel hv hw) h.roots hl

theorem of_readCommandBy (h : s.Rooted) (names : catalogue.Unindented)
    (read : readCommandBy whole catalogue strict s c = .ok t) : t.Rooted := by
  unfold readCommandBy at read
  split at read
  · obtain ⟨count, _, copied⟩ := bind_eq_ok.1 read
    exact h.of_copyTo copied
  · exact h.of_readTask names read

theorem readCommandBy_fails (h : s.Rooted) (names : catalogue.Unindented)
    (whole : String → Option Int) (strict : Bool) (c : Command) :
    FailsBy Ordinary (readCommandBy whole catalogue strict s c) := by
  unfold readCommandBy
  split
  · exact (copiesBy_fails whole c).bind fun count _ => h.copyTo_fails _ c count
  · exact h.readTask_fails names strict c

end Rooted

/-- The steps of the pipeline that the reader comes to take are possible: outputs that labels stand
for and open ones are found with their members, a new job gets in, and in the end the links at
branches are put in order and the members in a dependency order. -/
structure Secure (s : Reading) : Prop where
  labels : ∀ e ∈ s.labels, (∃ m, s.pipeline.find e.2.key = .ok m) ∧
    ∃ d, s.pipeline.outputAt e.2.key e.2.slot = .ok d
  pending : ∀ e ∈ s.pending, (∃ m, s.pipeline.find e.2.key = .ok m) ∧
    ∃ d, s.pipeline.outputAt e.2.key e.2.slot = .ok d
  enters : ∀ j : Job, j.serial = s.pipeline.size → ∃ m p,
    s.pipeline.add { j with id := none } none = .ok (m.key, p) ∧ p.find m.key = .ok m
  orders : ∃ p, s.branched.foldlM orderBranches s.pipeline = .ok p ∧
    ∃ placed, p.arrange = .ok placed

theorem find_of_outputAt {p : Pipeline} {d : Connector} (h : p.outputAt o.key o.slot = .ok d) :
    ∃ m, p.find o.key = .ok m := by
  obtain ⟨m, hm, _⟩ := outputAt_eq_ok.1 h
  exact ⟨m, find_eq_ok_iff.2 hm⟩

theorem Rooted.secure (h : s.Rooted) : s.Secure where
  labels e he := by
    obtain ⟨d, output⟩ := h.labels e he
    exact ⟨find_of_outputAt output, d, output⟩
  pending e he := by
    obtain ⟨d, output, _⟩ := h.pending e he
    exact ⟨find_of_outputAt output, d, output⟩
  enters _ serial := h.exists_entered serial
  orders := by
    obtain ⟨p, hp⟩ := h.exists_order
    obtain ⟨growing, _⟩ := h.of_orderBranches (.ends hp)
    exact ⟨p, hp, growing.forward.arrange growing.sound⟩

theorem Rooted.exists_finish (h : s.Rooted) : ∃ p, s.finish = .ok p := by
  obtain ⟨p, hp⟩ := h.exists_order
  exact ⟨p, by rw [h.finish_eq, hp]; rfl⟩

end Reading

namespace Reader

open Reading

variable {r : Reader} {whole : String → Option Int} {text : String} {name : Option String}
  {s : Reading}

/-- The pipeline of a command line when numbers are read in some way: slots however many digits they
have, and counts as `whole` reads them. -/
def readBy (r : Reader) (whole : String → Option Int) (text : String) (name : Option String) :
    Except ReadError Pipeline := do
  let s ← (CommandLine.commands r.marker text).foldlM
    (readCommandBy whole r.catalogue.orBundled r.strict) (start name)
  s.finish

theorem read_eq (r : Reader) (text : String) (name : Option String) :
    r.read text name = match CommandLine.overlong? r.marker text with
      | some n => .error (.overlong n)
      | none => r.readBy Text.wholeNumber? text name := by
  rw [readBy, readCommandBy_wholeNumber?]
  unfold read CommandLine.read
  cases CommandLine.overlong? r.marker text <;> rfl

theorem rooted_of_passes (names : r.catalogue.Unindented) {commands : List Command}
    (passes : Passes (readCommandBy whole r.catalogue.orBundled r.strict) commands (start name) s) :
    s.Rooted :=
  passes.keeps (fun _ _ _ _ hs hr => hs.of_readCommandBy names.orBundled hr) (.start name)

theorem readBy_fails (names : r.catalogue.Unindented) (whole : String → Option Int)
    (text : String) (name : Option String) :
    FailsBy ReadError.Ordinary (r.readBy whole text name) := by
  refine .bind (.foldlM (P := Rooted) (fun c _ s hs => ?_) (fun c _ s t hs ht => ?_) (.start name))
    fun s run => ?_
  · exact hs.readCommandBy_fails names.orBundled whole r.strict c
  · exact hs.of_readCommandBy names.orBundled ht
  · exact .of_ok (rooted_of_passes names (.ends run)).exists_finish

/-- Command lines do not go wrong. Numbers with too many digits apart, a text is read or refused
with a message, and the refusal is neither one of the pipeline nor for a cycle: whatever is looked
up, entered or put in order on the way is there to be found, entered or put in order. -/
theorem reads_or_refuses (r : Reader) (names : r.catalogue.Unindented)
    (whole : String → Option Int) (text : String) (name : Option String) :
    ((∃ q, r.readBy whole text name = .ok q) ∨
      ∃ e, r.readBy whole text name = .error e ∧ e.Ordinary ∧ ∃ refusal message,
        e.refusal? Messages.english = .ok (some refusal) ∧
          refusal.message Messages.english = .ok message) ∧
    (∀ s, Passes (readCommandBy whole r.catalogue.orBundled r.strict)
      (CommandLine.commands r.marker text) (start name) s → s.Secure) ∧
    (CommandLine.overlong? r.marker text = none →
      r.read text name = r.readBy Text.wholeNumber? text name) := by
  refine ⟨?_, fun s passes => (rooted_of_passes names passes).secure, fun h => by rw [read_eq, h]⟩
  cases hread : r.readBy whole text name with
  | ok q => exact .inl ⟨q, rfl⟩
  | error e =>
    have ordinary := readBy_fails names whole text name e hread
    exact .inr ⟨e, rfl, ordinary, ordinary.exists_message Messages.english_simple⟩

theorem bundled_reads_or_refuses :
    ((∃ q, Reader.readBy ⟨Catalogue.bundled, "\\", true⟩ String.toInt?
        "--rx a --tee 3 --wx b" none = .ok q) ∨
      ∃ e, Reader.readBy ⟨Catalogue.bundled, "\\", true⟩ String.toInt?
          "--rx a --tee 3 --wx b" none = .error e ∧ e.Ordinary ∧ ∃ refusal message,
        e.refusal? Messages.english = .ok (some refusal) ∧
          refusal.message Messages.english = .ok message) ∧
    (∀ s, Passes (readCommandBy String.toInt? Catalogue.bundled.orBundled true)
      (CommandLine.commands "\\" "--rx a --tee 3 --wx b") (start none) s → s.Secure) ∧
    (CommandLine.overlong? "\\" "--rx a --tee 3 --wx b" = none →
      Reader.read ⟨Catalogue.bundled, "\\", true⟩ "--rx a --tee 3 --wx b" none =
        Reader.readBy ⟨Catalogue.bundled, "\\", true⟩ Text.wholeNumber? "--rx a --tee 3 --wx b"
          none) :=
  reads_or_refuses ⟨Catalogue.bundled, "\\", true⟩ Catalogue.bundled_unindented String.toInt? _ none

end Reader

end Sluice
