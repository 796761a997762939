import Sluice.Proofs.Pipeline.Arranging

/-! Ties between members that can be placed. All of them wait in one line: those without links into
them from the start, as they stand in the pipeline, and each other one from the moment when the last
link into it is closed. It is the order of this line, and not that of the pipeline, that decides who
is placed next. -/

namespace Sluice.Pipeline

open scoped List

variable {p : Pipeline} {d : Degrees} {done queue placed ids : List String} {key : String}

def Free (p : Pipeline) (placed : List String) (key : String) : Prop :=
  ∀ source ∈ p.dependencies key, source ∈ placed

instance (p : Pipeline) (placed : List String) (key : String) : Decidable (p.Free placed key) :=
  inferInstanceAs (Decidable (∀ source ∈ p.dependencies key, source ∈ placed))

def targets (p : Pipeline) (key : String) : List String :=
  (p.linksOn key .output).map Link.target

/-- The members that are free when some are placed, each where the last link into it is closed, so
that of several times that it is named the last one counts. -/
def line (p : Pipeline) (placed : List String) : List String :=
  p.keys.filter (p.Free [] ·) ++ (placed.flatMap p.targets).dedup.filter (p.Free placed ·)

def firstFree? (p : Pipeline) (placed : List String) : Option String :=
  p.keys.find? fun key => p.Free placed key ∧ key ∉ placed

/-- An order in which the members are taken from the line, first come, first served. It begins with
those that are free from the start, and where those who wait stand as in the pipeline, the first of
all free members comes next. -/
structure InTurn (p : Pipeline) (ids : List String) : Prop where
  perm : ids ~ p.keys
  free : ∀ placed key, key ∈ p.line placed ↔ key ∈ p.keys ∧ p.Free placed key
  start : p.keys.filter (p.Free [] ·) <+: ids
  next : ∀ before key rest, ids = before ++ key :: rest →
    ∃ waiting, p.line before = before ++ key :: waiting ∧ waiting <+: rest ∧
      (key :: waiting <+ p.keys → p.firstFree? before = some key)

theorem dedup_append_eq {α : Type} [DecidableEq α] (as bs : List α) :
    (as ++ bs).dedup = as.dedup.filter (· ∉ bs) ++ bs.dedup := by
  induction as with
  | nil => rfl
  | cons a r ih =>
    rw [List.cons_append]
    by_cases hr : a ∈ r
    · rw [List.dedup_cons_of_mem (List.mem_append_left _ hr), List.dedup_cons_of_mem hr, ih]
    · rw [List.dedup_cons_of_notMem hr, List.filter_cons]
      by_cases hb : a ∈ bs
      · rw [List.dedup_cons_of_mem (List.mem_append_right _ hb), ih, if_neg (by simpa using hb)]
      · rw [List.dedup_cons_of_notMem (by simp [hr, hb]), ih, if_pos (by simpa using hb)]
        rfl

theorem mem_targets (hp : p.Sound) {source : String} :
    key ∈ p.targets source ↔ source ∈ p.dependencies key := by
  simp only [targets, dependencies, List.mem_eraseDups, List.mem_map, hp.mem_linksOn]
  constructor
  · rintro ⟨l, ⟨hl, hsource⟩, htarget⟩
    exact ⟨l, ⟨hl, htarget⟩, hsource⟩
  · rintro ⟨l, ⟨hl, htarget⟩, hsource⟩
    exact ⟨l, ⟨hl, hsource⟩, htarget⟩

theorem free_iff (hp : p.Sound) :
    p.Free placed key ↔ openInto p (closedBy placed) key = [] := by
  simp only [Free, dependencies, List.mem_eraseDups, List.mem_map, hp.mem_linksOn,
    openInto_eq_nil, closedBy, List.contains_iff_mem]
  constructor
  · intro free l hl htarget
    exact free l.source ⟨l, ⟨hl, htarget⟩, rfl⟩
  · rintro closed source ⟨l, ⟨hl, htarget⟩, rfl⟩
    exact closed l hl htarget

theorem mem_line (hp : p.Sound) (placed : List String) (key : String) :
    key ∈ p.line placed ↔ key ∈ p.keys ∧ p.Free placed key := by
  rw [line, List.mem_append, List.mem_filter, List.mem_filter, List.mem_dedup, List.mem_flatMap]
  simp only [decide_eq_true_eq, mem_targets hp]
  constructor
  · rintro (⟨hkey, free⟩ | ⟨⟨source, _, hsource⟩, free⟩)
    · exact ⟨hkey, fun source hsource => absurd (free source hsource) List.not_mem_nil⟩
    · obtain ⟨l, hl, htarget⟩ := List.mem_map.1 ((mem_targets hp).2 hsource)
      exact ⟨htarget ▸ (hp.fits l (hp.mem_linksOn.1 hl).1).mem_keys .input, free⟩
  · rintro ⟨hkey, free⟩
    by_cases root : p.dependencies key = []
    · exact .inl ⟨hkey, fun source hsource => by simp [root] at hsource⟩
    · obtain ⟨source, hsource⟩ := List.exists_mem_of_ne_nil _ root
      exact .inr ⟨⟨source, free source hsource, hsource⟩, free⟩

theorem line_place (hp : p.Sound) (fresh : key ∉ done) :
    p.line (done ++ [key]) =
      p.line done ++ freed p (closedBy done) (p.linksOn key .output) := by
  -- Who is fed by the new member was not free before, so that nobody who was is put further back.
  have before : ((done.flatMap p.targets).dedup.filter (· ∉ p.targets key)).filter
      (p.Free (done ++ [key]) ·) = (done.flatMap p.targets).dedup.filter (p.Free done ·) := by
    rw [List.filter_filter]
    refine List.filter_congr fun k _ => ?_
    rw [Bool.eq_iff_iff, Bool.and_eq_true, decide_eq_true_eq, decide_eq_true_eq, decide_eq_true_eq,
      mem_targets hp]
    constructor
    · rintro ⟨free, other⟩ source hsource
      refine (List.mem_append.1 (free source hsource)).resolve_right fun hkey => ?_
      exact other (List.mem_singleton.1 hkey ▸ hsource)
    · intro free
      exact ⟨fun source hsource => List.mem_append_left _ (free source hsource),
        fun hkey => fresh (free key hkey)⟩
  have behind : (p.targets key).dedup.filter (p.Free (done ++ [key]) ·) =
      freed p (closedBy done) (p.linksOn key .output) := by
    refine List.filter_congr fun k _ => ?_
    rw [decide_eq_decide, free_iff hp, openInto_congr fun l hl => closedBy_place hp done key hl]
  rw [line, line, List.flatMap_append, List.flatMap_singleton, dedup_append_eq,
    List.filter_append, before, behind, List.append_assoc]

theorem Counts.line_nil (hp : p.Sound) (h : Counts p (closedBy []) d queue) :
    (d.filter fun e => e.2 == 0).map Prod.fst = p.line [] := by
  have same : (d.filter fun e => e.2 == 0) = d.filter ((p.Free [] ·) ∘ Prod.fst) := by
    refine List.filter_congr fun e he => ?_
    rw [Bool.eq_iff_iff, beq_iff_eq, Function.comp, decide_eq_true_eq, free_iff hp,
      h.degrees e he, ← List.length_eq_zero_iff, Int.natCast_eq_zero]
  rw [same, ← List.filter_map, h.keys]
  simp [line]

theorem arrangeFrom_line (hp : p.Sound) (h : Counts p (closedBy done) d (done ++ queue))
    (inLine : p.line done = done ++ queue) (made : p.arrangeFrom d queue = .ok placed) :
    queue <+: placed ∧ ∀ before key rest, placed = before ++ key :: rest →
      ∃ waiting, p.line (done ++ before) = done ++ before ++ key :: waiting ∧
        waiting <+: rest := by
  fun_induction p.arrangeFrom d queue generalizing done placed with
  | case1 d =>
    obtain rfl : [] = placed := Except.ok.inj made
    exact ⟨List.nil_prefix, fun before key rest split => by simp at split⟩
  | case2 d first queue e he => cases made
  | case3 d first queue e rest he ih =>
    obtain ⟨e', hclose, hcounts⟩ := h.place hp
    rw [he, Except.ok.injEq, Prod.mk.injEq] at hclose
    obtain ⟨rfl, rfl⟩ := hclose
    obtain ⟨later, hlater, hmade⟩ := bind_eq_ok.1 made
    obtain rfl := pure_eq_ok.1 hmade
    have moved : p.line (done ++ [first]) = done ++ [first] ++
        (queue ++ freed p (closedBy done) (p.linksOn first .output)) := by
      rw [line_place hp h.fresh, inLine]
      simp
    -- The line after this member begins with the queue, which is therefore placed next.
    obtain ⟨ahead, served⟩ := ih hcounts moved hlater
    have behind : queue <+: later := (List.prefix_append _ _).trans ahead
    refine ⟨List.cons_prefix_cons.2 ⟨rfl, behind⟩, fun before key rest split => ?_⟩
    cases before with
    | nil =>
      obtain ⟨rfl, rfl⟩ := List.cons.inj split
      exact ⟨queue, by simpa using inLine, behind⟩
    | cons k r =>
      obtain ⟨rfl, split'⟩ := List.cons.inj split
      simpa using served r key rest split'

theorem firstFree?_of_line (hp : p.Sound) {before waiting : List String}
    (inLine : p.line before = before ++ key :: waiting) (nodup : (before ++ key :: waiting).Nodup)
    (asMembers : key :: waiting <+ p.keys) : p.firstFree? before = some key := by
  obtain ⟨_, once, apart⟩ := List.nodup_append'.1 nodup
  have perm : p.keys.filter (fun k => p.Free before k ∧ k ∉ before) ~ key :: waiting := by
    refine (List.perm_ext_iff_of_nodup (hp.keys_nodup.filter _) once).2 fun k => ?_
    rw [List.mem_filter, decide_eq_true_eq, ← and_assoc, ← mem_line hp, inLine, List.mem_append]
    exact ⟨fun h => h.1.resolve_left h.2, fun h => ⟨.inr h, fun hk => apart hk h⟩⟩
  have same := (hp.keys_nodup.perm_iff_eq_of_sublist List.filter_sublist asMembers).1 perm
  rw [firstFree?, ← List.head?_filter, same, List.head?_cons]

theorem inTurn_of_arrange (hp : p.Sound) (made : p.arrange = .ok ids) : p.InTurn ids := by
  obtain ⟨perm, _⟩ := hp.arrange_or_cycle.order ids made
  obtain ⟨d, hd, hcounts⟩ := exists_counts hp
  have start := hcounts.line_nil hp
  rw [start] at hcounts
  simp only [arrange, hd, ok_bind, start] at made
  obtain ⟨placed, hplaced, hmade⟩ := bind_eq_ok.1 made
  obtain rfl : placed = ids := by
    split at hmade
    · exact pure_eq_ok.1 hmade
    · exact absurd hmade throw_ne_ok
  obtain ⟨ahead, served⟩ := arrangeFrom_line hp hcounts rfl hplaced
  refine ⟨perm, mem_line hp, by simpa [line] using ahead, fun before key rest split => ?_⟩
  obtain ⟨waiting, inLine, behind⟩ := served before key rest split
  have nodup : (before ++ key :: waiting).Nodup := by
    refine List.Nodup.sublist ?_ (perm.nodup_iff.2 hp.keys_nodup)
    rw [split]
    exact (List.Sublist.refl _).append (behind.sublist.cons_cons _)
  exact ⟨waiting, inLine, behind, firstFree?_of_line hp inLine nodup⟩

/-- Whatever regular edits have made of a pipeline without cycles, its members are taken from the
line, first come, first served. -/
theorem Built.inTurn (b : Built Edit.Regular p) (acyclic : Acyclic p.links) :
    ∃ ids, p.arrange = .ok ids ∧ p.InTurn ids := by
  obtain ⟨ids, made, _⟩ := arrange_of_acyclic b.sound acyclic
  exact ⟨ids, made, inTurn_of_arrange b.sound made⟩

theorem fork_inTurn : ∃ ids, fork.arrange = .ok ids ∧ fork.InTurn ids :=
  Built.inTurn fork_built.regular
    (.of_rank (fun key => if key = "source_2" then 0 else 1) (by decide +kernel))

def turnedEdits : List Edit :=
  [.add (Stage.ofTask 0 source none) none,
    .add (Stage.ofTask 1 sink none) none,
    .add (Stage.ofTask 2 sink none) none,
    .connect "source_0" "sink_2" none none,
    .connect "source_0" "sink_1" none none]

def turned : Pipeline :=
  turnedEdits.foldl Edit.apply (Pipeline.new none)

theorem turned_built : Built Edit.Plain turned := by
  refine .edits (.new none) ?_
  simp only [turnedEdits, Allows]
  exact ⟨⟨proper_source 0 _, by decide +kernel⟩, ⟨proper_sink 1 _, by decide +kernel⟩,
    ⟨proper_sink 2 _, by decide +kernel⟩, trivial, trivial, trivial⟩

theorem turned_places_second_first : Built Edit.Plain turned ∧ Acyclic turned.links ∧
    turned.keys = ["source_0", "sink_1", "sink_2"] ∧
    turned.arrange = .ok ["source_0", "sink_2", "sink_1"] ∧
    turned.firstFree? ["source_0"] = some "sink_1" := by
  have acyclic : Acyclic turned.links :=
    .of_rank (fun key => if key = "source_0" then 0 else 1) (by decide +kernel)
  have sound := turned_built.regular.sound
  obtain ⟨ids, made, perm, _⟩ := arrange_of_acyclic sound acyclic
  have inTurn := inTurn_of_arrange sound made
  have keys : turned.keys = ["source_0", "sink_1", "sink_2"] := by decide +kernel
  have start : turned.keys.filter (turned.Free [] ·) = ["source_0"] := by decide +kernel
  have line : turned.line ["source_0"] = ["source_0", "sink_2", "sink_1"] := by decide +kernel
  obtain ⟨rest, rfl⟩ := start ▸ inTurn.start
  have length : rest.length = 2 := by simpa [keys] using perm.length_eq
  obtain ⟨key, last, rfl⟩ := List.length_eq_two.1 length
  obtain ⟨waiting, inLine, behind, _⟩ := inTurn.next ["source_0"] key [last] rfl
  rw [line] at inLine
  obtain ⟨rfl, rfl⟩ : "sink_2" = key ∧ ["sink_1"] = waiting := by simpa using inLine
  obtain rfl : "sink_1" = last := by simpa using behind
  exact ⟨turned_built, acyclic, keys, made, by decide +kernel⟩

end Sluice.Pipeline
