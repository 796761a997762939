import Sluice.Program.Arguments
import Sluice.Proofs.Steps

/-! Values of options. Whatever arguments a command is given, a value that is kept is empty or one
of the choices of an option of its grammar. -/

namespace Sluice.Grammar

variable {g : Grammar} {s t : State} {o : CommandOption} {args rest : List (String × Mark)}

def Takes (g : Grammar) (e : String × String) : Prop :=
  e.2 = "" ∨ ∃ o ∈ g.options, o.key = e.1 ∧
    ∃ choices, o.kind = .valued choices ∧ allows choices e.2 = true

def Kept (g : Grammar) (s : State) : Prop :=
  ∀ e ∈ s.found.options, g.Takes e

def Marked (g : Grammar) (args : List (String × Mark)) : Prop :=
  ∀ a ∈ args, ∀ o name attached, a.2 = .option (some o) name attached → o ∈ g.options

theorem Marked.of_subset (h : g.Marked args) (sub : rest ⊆ args) : g.Marked rest :=
  fun a ha => h a (sub ha)

theorem mem_of_named? {name : String} (h : g.named? name = some o) : o ∈ g.options :=
  List.mem_of_find?_eq_some h

theorem operand?_subset {arg : String} (h : operand? args = some (arg, rest)) : rest ⊆ args := by
  unfold operand? at h
  split at h
  · obtain ⟨rfl, rfl⟩ := Prod.mk.inj (Option.some.inj h)
    exact List.Subset.trans (List.subset_cons_self _ _) (List.subset_cons_self _ _)
  · obtain ⟨rfl, rfl⟩ := Prod.mk.inj (Option.some.inj h)
    exact List.Subset.trans (List.subset_cons_self _ _) (List.subset_cons_self _ _)
  · obtain ⟨rfl, rfl⟩ := Prod.mk.inj (Option.some.inj h)
    exact List.subset_cons_self _ _
  · cases h

theorem takeOperands_keeps (g : Grammar) (s : State) (args : List (String × Mark)) :
    (g.takeOperands s args).1.found.options = s.found.options ∧
      (g.takeOperands s args).2 ⊆ args := by
  unfold takeOperands
  split
  · dsimp only
    split_ifs
    · exact ⟨rfl, List.Subset.refl _⟩
    · exact ⟨rfl, List.nil_subset _⟩
  · split
    · rename_i found
      exact ⟨rfl, operand?_subset found⟩
    · exact ⟨rfl, List.Subset.refl _⟩

theorem Kept.keep (h : g.Kept s) {value : String} (takes : g.Takes (o.key, value)) :
    g.Kept (keep s o value) := by
  intro e he
  rcases List.mem_append.1 he with he | he
  · exact h e he
  · exact List.mem_singleton.1 he ▸ takes

theorem Kept.keepValue (h : g.Kept s) (ho : o ∈ g.options) {choices : Option (List String)}
    (valued : o.kind = .valued choices) {value : String}
    (kept : Grammar.keepValue s o choices value = .ok t) : g.Kept t := by
  unfold Grammar.keepValue at kept
  split at kept
  · exact pure_eq_ok.1 kept ▸ h.keep (.inl rfl)
  · split at kept
    · rename_i allowed
      exact pure_eq_ok.1 kept ▸ h.keep (.inr ⟨o, ho, rfl, choices, valued, allowed⟩)
    · simp at kept

theorem Kept.raise (h : g.Kept s) (raised : Grammar.raise s o = .ok t) : g.Kept t := by
  unfold Grammar.raise at raised
  split at raised
  · simp at raised
  · exact pure_eq_ok.1 raised ▸ h.keep (.inl rfl)

theorem Kept.raiseAll (h : g.Kept s) {options : List CommandOption}
    (raised : options.foldlM Grammar.raise s = .ok t) : g.Kept t :=
  foldlM_keeps (fun _ _ _ _ hs ht => hs.raise ht) h raised

theorem last_mem_of_runTogether {before : List CommandOption} (ho : o ∈ g.options)
    {cs : List Char} {run : Run} (h : g.runTogether before o cs = .ok run) :
    run.last ∈ g.options := by
  induction cs generalizing before o with
  | nil => exact pure_eq_ok.1 h ▸ ho
  | cons c r ih =>
    rw [runTogether] at h
    split at h
    · exact pure_eq_ok.1 h ▸ ho
    · split at h
      · rename_i found
        exact ih (mem_of_named? found) h
      · simp at h

theorem Kept.takeOption (h : g.Kept s) {arg name : String} {known : Option CommandOption}
    (mem : ∀ o, known = some o → o ∈ g.options) {attached : Option String} {consumed : Bool}
    (taken : g.takeOption s arg known name attached rest = .ok (t, consumed)) : g.Kept t := by
  unfold Grammar.takeOption at taken
  split at taken
  · simp only [pure_eq_ok, Prod.mk.injEq] at taken
    exact taken.1 ▸ h
  · rename_i o
    have ho := mem o rfl
    split at taken
    · rename_i valued
      obtain ⟨u, kept, taken⟩ := bind_eq_ok.1 taken
      simp only [pure_eq_ok, Prod.mk.injEq] at taken
      exact taken.1 ▸ h.keepValue ho valued kept
    · split at taken
      · simp at taken
      · obtain ⟨run, together, taken⟩ := bind_eq_ok.1 taken
        have last := last_mem_of_runTogether ho together
        split at taken
        · rename_i valued _
          simp only [bind_eq_ok, pure_eq_ok, Prod.mk.injEq] at taken
          obtain ⟨v, raised, u, kept, rfl, _⟩ := taken
          exact (h.raiseAll raised).keepValue last valued kept
        · rename_i valued _
          simp only [bind_eq_ok, pure_eq_ok, Prod.mk.injEq] at taken
          obtain ⟨value, _, v, raised, u, kept, rfl, _⟩ := taken
          exact (h.raiseAll raised).keepValue last valued kept
        · simp only [bind_eq_ok, pure_eq_ok, Prod.mk.injEq] at taken
          obtain ⟨v, raised, u, kept, rfl, _⟩ := taken
          exact (h.raiseAll raised).raise kept
    · rename_i valued
      simp only [bind_eq_ok, pure_eq_ok, Prod.mk.injEq] at taken
      obtain ⟨value, _, u, kept, rfl, _⟩ := taken
      exact h.keepValue ho valued kept
    · simp only [bind_eq_ok, pure_eq_ok, Prod.mk.injEq] at taken
      obtain ⟨u, kept, rfl, _⟩ := taken
      exact h.raise kept

theorem Kept.parseFrom (h : g.Kept s) {fuel : Nat} (marked : g.Marked args)
    (parsed : g.parseFrom fuel s args = .ok t) : g.Kept t := by
  induction fuel generalizing s args with
  | zero => simp [Grammar.parseFrom] at parsed
  | succ fuel ih =>
    have operands := takeOperands_keeps g s args
    have taken : g.Kept (g.takeOperands s args).1 := fun e he => h e (operands.1 ▸ he)
    unfold Grammar.parseFrom at parsed
    split at parsed
    · exact pure_eq_ok.1 parsed ▸ taken
    · split at parsed
      · rename_i known name attached r _
        obtain ⟨⟨u, consumed⟩, option, parsed⟩ := bind_eq_ok.1 parsed
        have kept := h.takeOption (fun o ho => marked _ List.mem_cons_self o name attached
          (by rw [ho])) option
        refine ih kept (marked.of_subset ?_) parsed
        split
        · exact List.Subset.trans (List.tail_sublist r).subset (List.subset_cons_self _ _)
        · exact List.subset_cons_self _ _
      · dsimp only at parsed
        split at parsed
        · exact ih taken (marked.of_subset operands.2) parsed
        · refine ih ?_ (marked.of_subset (List.dropWhile_sublist _).subset) parsed
          exact taken

end Sluice.Grammar
