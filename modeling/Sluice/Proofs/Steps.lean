import Mathlib.Data.List.Forall2

/-! Steps that can fail. A sequence of steps succeeds when each of them does, and its result is
put together from theirs. -/

namespace Sluice

variable {ε α β : Type}

@[simp] theorem bind_eq_ok {x : Except ε α} {f : α → Except ε β} {b : β} :
    (x >>= f) = .ok b ↔ ∃ a, x = .ok a ∧ f a = .ok b := by
  cases x with
  | error e => simp [bind, Except.bind]
  | ok a => simp [bind, Except.bind]

@[simp] theorem ok_bind (a : α) (f : α → Except ε β) : (Except.ok a >>= f) = f a := rfl

@[simp] theorem map_eq_ok {x : Except ε α} {f : α → β} {b : β} :
    f <$> x = .ok b ↔ ∃ a, x = .ok a ∧ f a = b := by
  cases x <;> simp [Functor.map, Except.map]

@[simp] theorem pure_eq_ok {a b : α} : (pure a : Except ε α) = .ok b ↔ a = b := by
  simp [pure, Except.pure]

@[simp] theorem throw_ne_ok {e : ε} {a : α} : (throw e : Except ε α) ≠ .ok a := by
  simp [throw, throwThe, MonadExceptOf.throw]

theorem check_eq_ok {c : Prop} [Decidable c] {e : ε} {rest : Unit → Except ε α} {a : α} :
    (if c then (throw e : Except ε Unit) >>= rest else rest ()) = .ok a ↔
      ¬c ∧ rest () = .ok a := by
  split <;> simp [*]

theorem mapM_eq_ok {f : α → Except ε β} {as : List α} {bs : List β} :
    as.mapM f = .ok bs ↔ List.Forall₂ (fun a b => f a = .ok b) as bs := by
  induction as generalizing bs with
  | nil => simp
  | cons a as ih =>
    simp only [List.mapM_cons, bind_eq_ok, pure_eq_ok, ih, List.forall₂_cons_left_iff]
    constructor
    · rintro ⟨b, hb, r, hr, rfl⟩
      exact ⟨b, r, hb, hr, rfl⟩
    · rintro ⟨b, r, hb, hr, rfl⟩
      exact ⟨b, hb, r, hr, rfl⟩

theorem mapM_forall {f : α → Except ε β} {P : β → Prop} {as : List α} {bs : List β}
    (each : ∀ a b, f a = .ok b → P b) (run : as.mapM f = .ok bs) : ∀ b ∈ bs, P b := by
  rw [mapM_eq_ok] at run
  induction run with
  | nil => simp
  | cons first _ ih => exact List.forall_mem_cons.2 ⟨each _ _ first, ih⟩

theorem foldlM_keeps {f : β → α → Except ε β} {P : β → Prop} {as : List α} {b c : β}
    (keeps : ∀ a ∈ as, ∀ b c, P b → f b a = .ok c → P c) (start : P b)
    (run : as.foldlM f b = .ok c) : P c := by
  induction as generalizing b with
  | nil =>
    obtain rfl : b = c := by simpa using run
    exact start
  | cons a as ih =>
    rw [List.foldlM_cons, bind_eq_ok] at run
    obtain ⟨d, first, rest⟩ := run
    exact ih (fun a ha => keeps a (List.mem_cons_of_mem _ ha))
      (keeps a List.mem_cons_self b d start first) rest

def FailsBy (ways : ε → Prop) (x : Except ε α) : Prop :=
  ∀ e, x = .error e → ways e

namespace FailsBy

variable {ways : ε → Prop} {x : Except ε α} {f : α → Except ε β}

theorem ok (a : α) : FailsBy ways (.ok a) :=
  fun _ h => nomatch h

theorem throws {e : ε} (h : ways e) : FailsBy ways (throw e : Except ε α) := by
  intro d hd
  cases hd
  exact h

theorem of_ok (h : ∃ a, x = .ok a) : FailsBy ways x := by
  obtain ⟨a, rfl⟩ := h
  exact ok a

theorem exists_ok (h : FailsBy (fun _ => False) x) : ∃ a, x = .ok a := by
  cases x with
  | error e => exact (h e rfl).elim
  | ok a => exact ⟨a, rfl⟩

theorem bind (h : FailsBy ways x) (next : ∀ a, x = .ok a → FailsBy ways (f a)) :
    FailsBy ways (x >>= f) := by
  cases x with
  | error e =>
    intro d hd
    cases hd
    exact h e rfl
  | ok a => exact next a rfl

theorem guard {c : Prop} [Decidable c] {e : ε} {rest : Unit → Except ε α} (h : ways e)
    (next : FailsBy ways (rest ())) :
    FailsBy ways (if c then (throw e : Except ε Unit) >>= rest else rest ()) := by
  split
  · exact throws h
  · exact next

theorem foldlM {step : β → α → Except ε β} {P : β → Prop} {as : List α} {b : β}
    (each : ∀ a ∈ as, ∀ b, P b → FailsBy ways (step b a))
    (keeps : ∀ a ∈ as, ∀ b c, P b → step b a = .ok c → P c) (start : P b) :
    FailsBy ways (as.foldlM step b) := by
  induction as generalizing b with
  | nil => exact ok b
  | cons a r ih =>
    rw [List.foldlM_cons]
    apply (each a List.mem_cons_self b start).bind
    intro c hc
    exact ih (fun a ha => each a (List.mem_cons_of_mem _ ha))
      (fun a ha => keeps a (List.mem_cons_of_mem _ ha)) (keeps a List.mem_cons_self b c start hc)

theorem each {step : β → α → Except ε β} (h : ∀ b a, FailsBy ways (step b a)) (as : List α)
    (b : β) : FailsBy ways (as.foldlM step b) :=
  foldlM (P := fun _ => True) (fun a _ b _ => h b a) (fun _ _ _ _ _ _ => trivial) trivial

theorem mapM {f : α → Except ε β} (h : ∀ a, FailsBy ways (f a)) (as : List α) :
    FailsBy ways (as.mapM f) := by
  induction as with
  | nil => exact ok []
  | cons a r ih =>
    rw [List.mapM_cons]
    exact (h a).bind fun b _ => ih.bind fun bs _ => ok (b :: bs)

end FailsBy

theorem foldlM_eq_error {f : β → α → Except ε β} {as : List α} {b : β} {e : ε} :
    as.foldlM f b = .error e ↔
      ∃ done a rest c, as = done ++ a :: rest ∧ done.foldlM f b = .ok c ∧ f c a = .error e := by
  constructor
  · intro h
    induction as generalizing b with
    | nil => cases h
    | cons a r ih =>
      rw [List.foldlM_cons] at h
      cases first : f b a with
      | error d =>
        rw [first] at h
        exact ⟨[], a, r, b, rfl, rfl, first.trans (congrArg Except.error (Except.error.inj h))⟩
      | ok c =>
        rw [first, ok_bind] at h
        obtain ⟨done, d, rest, u, rfl, run, failed⟩ := ih h
        exact ⟨a :: done, d, rest, u, rfl, by rw [List.foldlM_cons, first, ok_bind, run], failed⟩
  · rintro ⟨done, a, rest, c, rfl, run, failed⟩
    rw [List.foldlM_append, run, ok_bind, List.foldlM_cons, failed]
    rfl

/-- Steps taken one after the other up to the first that fails; what was done before stays. -/
def runAll (run : β → α → Except ε β) (b : β) : List α → β × Option ε
  | [] => (b, none)
  | a :: r =>
    match run b a with
    | .ok c => runAll run c r
    | .error e => (b, some e)

theorem runAll_of_foldlM {run : β → α → Except ε β} {as : List α} {b c : β}
    (h : as.foldlM run b = .ok c) : runAll run b as = (c, none) := by
  induction as generalizing b with
  | nil => exact congrArg (·, none) (pure_eq_ok.1 h)
  | cons a r ih =>
    rw [List.foldlM_cons, bind_eq_ok] at h
    obtain ⟨d, first, rest⟩ := h
    rw [runAll, first]
    exact ih rest

def failure? : Except ε α → Option ε
  | .ok _ => none
  | .error e => some e

def settled {σ : Type} (s : σ) (next : α → σ) : Except ε α → σ × Option ε
  | .ok a => (next a, none)
  | .error e => (s, some e)

theorem settled_eq_none {σ : Type} {s t : σ} {next : α → σ} {x : Except ε α} :
    settled s next x = (t, none) ↔ ∃ a, x = .ok a ∧ next a = t := by
  cases x <;> simp [settled]

theorem settled_eq_some {σ : Type} {s t : σ} {next : α → σ} {x : Except ε α} {e : ε} :
    settled s next x = (t, some e) ↔ s = t ∧ x = .error e := by
  cases x <;> simp [settled]

def execute (run : β → α → Except ε β) (b : β) : Except ε (List α) → β × Option ε
  | .ok as => runAll run b as
  | .error e => (b, some e)

inductive CarriedOut (run : β → α → Except ε β) (b : β) :
    Except ε (List α) → β × Option ε → Prop
  | refused (e : ε) : CarriedOut run b (.error e) (b, some e)
  | done {as : List α} {c : β} : as.foldlM run b = .ok c → CarriedOut run b (.ok as) (c, none)

namespace CarriedOut

variable {run : β → α → Except ε β} {b : β} {plan : Except ε (List α)} {outcome : β × Option ε}

theorem execute_eq (h : CarriedOut run b plan outcome) : execute run b plan = outcome := by
  cases h with
  | refused e => rfl
  | done steps => exact runAll_of_foldlM steps

theorem of_error (h : CarriedOut run b plan outcome) {e : ε} (failed : outcome.2 = some e) :
    outcome.1 = b ∧ plan = .error e := by
  cases h with
  | refused d =>
    obtain rfl := Option.some.inj failed
    exact ⟨rfl, rfl⟩
  | done _ => cases failed

end CarriedOut

theorem length_of_mapM {f : α → Except ε β} {as : List α} {bs : List β}
    (h : as.mapM f = .ok bs) : as.length = bs.length :=
  (mapM_eq_ok.1 h).length_eq

instance decidableExistsOk (result : Except ε α) (P : α → Prop) [DecidablePred P] :
    Decidable (∃ a, result = .ok a ∧ P a) :=
  match result with
  | .ok a => decidable_of_iff (P a) ⟨fun h => ⟨a, rfl, h⟩, fun ⟨_, hb, h⟩ => Except.ok.inj hb ▸ h⟩
  | .error _ => isFalse fun ⟨_, h, _⟩ => nomatch h

end Sluice
