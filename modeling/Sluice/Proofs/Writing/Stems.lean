import Sluice.Proofs.Pipeline.Effect
import Sluice.Proofs.Writing.Word

/-! What is written stems from members, in whatever state the pipeline is: if there is a text, each
part of it but the tool is the task of a member, with its values, or an adapter. -/

namespace Sluice.Writing

open Pipeline

variable {p : Pipeline} {settings : Settings} {layout : Layout} {among : List String} {m : Member}
  {w v : Writing} {writes writes' : List (Nat × Nat)} {tees tees' : List Block}

inductive Stems (settings : Settings) (layout : Layout) (m : Member) : Block → Prop
  | task {writes : List (Nat × Nat)} (reads : List (Nat × Nat)) : (writes = [] → m.outputs = []) →
    Stems settings layout m
      (.task (taskWord settings m.task) (valueParts settings layout m.toJob) reads writes)
  | tee {flow : Flow} {word : String} (copies source first : Nat) : flow.tee? = some word →
    Stems settings layout m (.tee word copies source first)

theorem writeOutput_stems {c : Connector}
    (run : writeOutput p among (w, writes, tees) c = .ok (v, writes', tees'))
    (old : ∀ b ∈ tees, Stems settings layout m b) :
    v.blocks = w.blocks ∧ writes' ≠ [] ∧ ∀ b ∈ tees', Stems settings layout m b := by
  simp only [writeOutput, bind_eq_ok] at run
  obtain ⟨peers, _, run⟩ := run
  split at run
  · obtain ⟨rfl, rfl, rfl⟩ : _ ∧ _ ∧ _ := by simpa using run
    exact ⟨rfl, by simp, old⟩
  · cases hword : c.flow.tee? with
    | none => simp [hword] at run
    | some word =>
      simp only [hword, pure_eq_ok, Prod.mk.injEq] at run
      obtain ⟨rfl, rfl, rfl⟩ := run
      refine ⟨rfl, by simp, List.forall_mem_append.2 ⟨old, ?_⟩⟩
      exact List.forall_mem_singleton.2 (.tee _ _ _ hword)

theorem writeOutputs_stems {outputs : List Connector}
    (run : outputs.foldlM (writeOutput p among) (w, writes, tees) = .ok (v, writes', tees'))
    (old : ∀ b ∈ tees, Stems settings layout m b) :
    v.blocks = w.blocks ∧ (writes' = [] → writes = [] ∧ outputs = []) ∧
      ∀ b ∈ tees', Stems settings layout m b := by
  induction outputs generalizing w writes tees with
  | nil =>
    obtain ⟨rfl, rfl, rfl⟩ : _ ∧ _ ∧ _ := by simpa using run
    exact ⟨rfl, fun h => ⟨h, rfl⟩, old⟩
  | cons c r ih =>
    rw [List.foldlM_cons, bind_eq_ok] at run
    obtain ⟨⟨u, writes₁, tees₁⟩, first, rest⟩ := run
    obtain ⟨same, some_write, stems⟩ := writeOutput_stems first old
    obtain ⟨same', none_write, stems'⟩ := ih rest stems
    exact ⟨same'.trans same, fun h => absurd (none_write h).1 some_write, stems'⟩

theorem writeMember_stems (run : writeMember p settings layout among w m = .ok v) :
    ∀ b ∈ v.blocks, b ∈ w.blocks ∨ Stems settings layout m b := by
  simp only [writeMember, bind_eq_ok, pure_eq_ok] at run
  obtain ⟨word, spoken, reads, _, ⟨u, writes, tees⟩, outputs, rfl⟩ := run
  obtain rfl := wordOf_eq_ok spoken
  have old : ∀ b ∈ ([] : List Block), Stems settings layout m b := by simp
  obtain ⟨same, none_write, stems⟩ := writeOutputs_stems outputs old
  intro b hb
  rcases List.mem_append.1 hb with hb | hb
  · exact .inl (same ▸ hb)
  · exact .inr (List.forall_mem_cons.2 ⟨.task reads fun h => (none_write h).2, stems⟩ b hb)

theorem writeQueue_stems {waiting : Nat} {queue : List Member}
    (run : writeQueue p settings layout among waiting w queue = .ok v) :
    ∀ b ∈ v.blocks, b ∈ w.blocks ∨ ∃ m ∈ queue, Stems settings layout m b := by
  fun_induction writeQueue p settings layout among waiting w queue with
  | case1 waiting w =>
    obtain rfl : w = v := by simpa using run
    exact fun b hb => .inl hb
  | case2 waiting w m r first back =>
    rw [bind_eq_ok] at run
    obtain ⟨ready, _, run⟩ := run
    cases ready with
    | true =>
      obtain ⟨u, written, run⟩ := bind_eq_ok.1 run
      intro b hb
      rcases first u run b hb with hb | ⟨k, hk, stems⟩
      · exact (writeMember_stems written b hb).imp_right fun stems => ⟨m, by simp, stems⟩
      · exact .inr ⟨k, List.mem_cons_of_mem m hk, stems⟩
    | false =>
      rw [if_neg Bool.false_ne_true] at run
      split at run
      · simp at run
      · rename_i fewer
        intro b hb
        rcases back fewer run b hb with hb | ⟨k, hk, stems⟩
        · exact .inl hb
        · rw [List.mem_append, List.mem_singleton, or_comm, ← List.mem_cons] at hk
          exact .inr ⟨k, hk, stems⟩

theorem mem_of_memberOf {s : Stage} (h : memberOf p s = .ok m) : m ∈ p.members := by
  unfold memberOf at h
  split at h
  · split at h
    · rename_i found
      obtain rfl : _ = m := by simpa using h
      obtain ⟨_, _, found⟩ := Option.bind_eq_some_iff.1 found
      exact (mem_of_member? found).1
    · simp at h
  · simp at h

theorem write_stems {some? : Option (List Stage)} {text : String}
    (run : p.write settings layout some? = .ok text) :
    ∃ blocks : List Block, text = layout.separator.intercalate (blocks.map Block.render) ∧
      ∀ b ∈ blocks, b ∈ toolBlocks settings layout ∨
        ∃ m ∈ p.members, Stems settings layout m b := by
  simp only [Pipeline.write, blocksOf, bind_eq_ok, pure_eq_ok] at run
  obtain ⟨_, ⟨members, held, w, queue, rfl⟩, rfl⟩ := run
  have inside := mapM_forall (fun _ _ => mem_of_memberOf) held
  refine ⟨w.blocks, rfl, fun b hb => ?_⟩
  rcases writeQueue_stems queue b hb with tool | ⟨m, hm, stems⟩
  · exact .inl tool
  · exact .inr ⟨m, inside m hm, stems⟩

end Sluice.Writing
