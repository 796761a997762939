import Sluice.Proofs.Writing.Blocks

/-! Labels while a command line is read. Every label is a number that stands for an output. A task
gives its outputs numbers and an adapter gives its branches numbers; either leaves all other numbers
as they are. -/

namespace Sluice.Reading

open CommandLine

variable {s t u : Reading} {o : Outlet} {n : Nat}

def Stands (s : Reading) (n : Nat) (o : Outlet) (branch : Option Nat) : Prop :=
  s.labels.lookup (toString n) = some o ∧ s.branches.lookup (toString n) = branch

structure Relabelled (changed : Nat → Prop) (s t : Reading) : Prop where
  pipeline : t.pipeline = s.pipeline
  branched : t.branched = s.branched
  pending : t.pending = s.pending
  kept : ∀ n, ¬changed n → ∀ o branch, s.Stands n o branch → t.Stands n o branch

namespace Relabelled

variable {changed also : Nat → Prop}

theorem refl (changed : Nat → Prop) (s : Reading) : Relabelled changed s s :=
  ⟨rfl, rfl, rfl, fun _ _ _ _ h => h⟩

theorem mono (h : Relabelled changed s t) (sub : ∀ n, changed n → also n) :
    Relabelled also s t :=
  ⟨h.pipeline, h.branched, h.pending, fun n hn => h.kept n fun hc => hn (sub n hc)⟩

theorem trans (h : Relabelled changed s t) (h' : Relabelled changed t u) :
    Relabelled changed s u :=
  ⟨h'.pipeline.trans h.pipeline, h'.branched.trans h.branched, h'.pending.trans h.pending,
    fun n hn o branch hs => h'.kept n hn o branch (h.kept n hn o branch hs)⟩

end Relabelled

theorem toString_ne {m n : Nat} (h : m ≠ n) : toString m ≠ toString n :=
  fun heq => h (Text.toString_injective heq)

theorem lookup_filter_ne (label other : String) (es : List (String × Nat)) :
    (es.filter fun e => e.1 ≠ label).lookup other =
      if other = label then none else es.lookup other := by
  induction es with
  | nil => simp
  | cons e r ih =>
    obtain ⟨k, v⟩ := e
    by_cases hk : k = label
    · subst hk
      by_cases ho : other = k
      · simpa [ho] using ih
      · simpa [ho, List.lookup_cons, beq_false_of_ne ho] using ih
    · by_cases ho : other = k
      · subst ho
        simp [hk]
      · simpa [hk, List.lookup_cons, beq_false_of_ne ho] using ih

theorem writeLabel_eq {m : Member} {slot : Nat} (h : slot < m.outputs.length) (s : Reading)
    (n : Nat) : ∃ t, writeLabel m s (pipeRef (slot, n)) = .ok t ∧ Relabelled (· = n) s t ∧
      t.Stands n ⟨m.key, slot⟩ none := by
  refine ⟨{ s with
      labels := Table.put (toString n) ⟨m.key, slot⟩ s.labels
      branches := s.branches.filter fun e => e.1 ≠ toString n }, ?_, ⟨rfl, rfl, rfl, ?_⟩, ?_, ?_⟩
  · rw [writeLabel, pipeRef, if_pos h]
    rfl
  · rintro k hk o branch ⟨hlabel, hbranch⟩
    have hne := toString_ne hk
    refine ⟨(Table.lookup_put_of_ne hne _ _).trans hlabel, ?_⟩
    rw [lookup_filter_ne, if_neg hne, hbranch]
  · exact Table.lookup_put_self _ _ _
  · rw [lookup_filter_ne, if_pos rfl]

theorem writeLabels_eq {m : Member} (writes : List (Nat × Nat))
    (slots : ∀ e ∈ writes, e.1 < m.outputs.length) (nodup : (writes.map Prod.snd).Nodup)
    (s : Reading) : ∃ t, (writes.map pipeRef).foldlM (writeLabel m) s = .ok t ∧
      Relabelled (· ∈ writes.map Prod.snd) s t ∧ ∀ e ∈ writes, t.Stands e.2 ⟨m.key, e.1⟩ none := by
  induction writes generalizing s with
  | nil => exact ⟨s, rfl, .refl _ s, by simp⟩
  | cons e r ih =>
    obtain ⟨hnew, hr⟩ := List.nodup_cons.1 nodup
    obtain ⟨t, ht, hst, hstands⟩ := writeLabel_eq (slots e (by simp)) s e.2
    obtain ⟨u, hu, htu, hrest⟩ := ih (fun d hd => slots d (by simp [hd])) hr t
    refine ⟨u, ?_, (hst.mono ?_).trans (htu.mono ?_), fun d hd => ?_⟩
    · rw [List.map_cons, List.foldlM_cons, ht, ok_bind, hu]
    · rintro k rfl
      simp
    · exact fun k hk => List.mem_cons_of_mem _ hk
    · rcases List.mem_cons.1 hd with rfl | hd
      · exact htu.kept d.2 hnew _ _ hstands
      · exact hrest d hd

theorem bindBranch_eq (o : Outlet) (s : Reading) (slot n : Nat) :
    Relabelled (· = n) s (bindBranch o s (pipeRef (slot, n))) ∧
      (bindBranch o s (pipeRef (slot, n))).Stands n o (some slot) := by
  refine ⟨⟨rfl, rfl, rfl, ?_⟩, Table.lookup_put_self _ _ _, Table.lookup_put_self _ _ _⟩
  rintro k hk o branch ⟨hlabel, hbranch⟩
  have hne := toString_ne hk
  exact ⟨(Table.lookup_put_of_ne hne _ _).trans hlabel,
    (Table.lookup_put_of_ne hne _ _).trans hbranch⟩

theorem bindBranches_eq (o : Outlet) (s : Reading) (first copies : Nat) :
    let t := ((List.range copies).map fun i => pipeRef (i, first + i)).foldl (bindBranch o) s
    Relabelled (fun n => first ≤ n ∧ n < first + copies) s t ∧
      ∀ i < copies, t.Stands (first + i) o (some i) := by
  induction copies with
  | zero => exact ⟨.refl _ s, by simp⟩
  | succ k ih =>
    obtain ⟨hst, hstands⟩ := ih
    rw [List.range_succ, List.map_append, List.foldl_append]
    generalize ((List.range k).map fun i => pipeRef (i, first + i)).foldl (bindBranch o) s = t
      at hst hstands
    obtain ⟨htu, hnew⟩ := bindBranch_eq o t k (first + k)
    refine ⟨(hst.mono fun n hn => by omega).trans (htu.mono fun n hn => by omega), fun i hi => ?_⟩
    by_cases hik : i = k
    · rw [hik]
      exact hnew
    · exact htu.kept _ (by omega) _ _ (hstands i (by omega))

theorem readTee_eq {flow : Flow} {word : String} {copies source first : Nat} {c : Command}
    (tee : TeeCommand word copies source first c) (stands : s.Stands source o none)
    (output : ∃ d, s.pipeline.outputAt o.key o.slot = .ok d ∧ d.flow = flow) :
    ∃ t, readTee flow s c = .ok t ∧
      Relabelled (fun n => first ≤ n ∧ n < first + copies) s t ∧
      ∀ i < copies, t.Stands (first + i) o (some i) := by
  obtain ⟨d, hd, hflow⟩ := output
  have hcopied : s.copied flow c = .ok (o, s) := by
    have hlabel := stands.1
    simp only [copied, tee.inPipes, List.getLast?_singleton, Option.bind_some, pipeRef, hlabel]
    rfl
  have hlength : copies - c.outPipes.length = 0 := by simp [tee.outPipes]
  have hbind := bindBranches_eq o s first copies
  rw [← tee.outPipes] at hbind
  obtain ⟨hst, hstands⟩ := hbind
  refine ⟨c.outPipes.foldl (bindBranch o) s, ?_, hst, hstands⟩
  simp only [readTee, tee.count, hcopied, ok_bind, hd, step, hlength, List.replicate_zero,
    List.append_nil]
  change (if d.flow ≠ flow then _ else _) = _
  rw [if_neg (not_not.2 hflow)]
  rfl

theorem readLabel_eq {c : Command} {key : String} {branch : Option Nat} {slot : Nat} {l : Link}
    {p : Pipeline} (stands : s.Stands n o branch)
    (connect : s.pipeline.connect o.key key (some o.slot) (some slot) = .ok (l, p)) :
    readLabel c key s (pipeRef (slot, n)) =
      .ok { s with
        pipeline := p
        branched := branch.elim s.branched fun n => keepBranch o (n, l) s.branched } := by
  obtain ⟨hlabel, hbranch⟩ := stands
  simp only [readLabel, pipeRef, hlabel, Reading.connect, connect]
  cases branch with
  | none =>
    simp only [pure, Except.pure, ok_bind, hbranch]
    rfl
  | some k =>
    simp only [pure, Except.pure, ok_bind, hbranch]
    rfl

theorem fillInputs_eq (pending : s.pending = []) (c : Command) (key : String)
    (inputs : List Connector) : inputs.foldlM (fillInput false c key) s = .ok s := by
  induction inputs with
  | nil => rfl
  | cons d r ih =>
    have : fillInput false c key s d = .ok s := by
      unfold fillInput
      split
      · rfl
      · simp [takePending, pending, takeFirst, pure, Except.pure]
    rw [List.foldlM_cons, this, ok_bind, ih]

theorem offerOutputs_eq {c : Command} {outputs : List Connector}
    (h : ∀ d ∈ outputs, (c.pipeAt? .output d.slot).isSome) (key : String) (s : Reading) :
    outputs.foldl (offerOutput c key) s = s := by
  induction outputs with
  | nil => rfl
  | cons d r ih =>
    rw [List.foldl_cons, offerOutput, if_pos (h d (by simp))]
    exact ih fun e he => h e (by simp [he])

end Sluice.Reading
