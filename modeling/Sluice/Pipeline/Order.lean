import Sluice.Pipeline

/-! A dependency order of the members: a member is placed when all links into it come from placed
members. Those without links into them come first, as they stand in the pipeline; each other one
joins the queue when the last link into it is closed. A member that is never freed lies on a cycle
or behind one. -/

namespace Sluice.Pipeline

abbrev Degrees :=
  List (String × Int)

namespace Degrees

def waiting (d : Degrees) : Nat :=
  d.countP fun e => 0 < e.2

def add? (key : String) (n : Int) : Degrees → Option (Int × Degrees)
  | [] => none
  | (k, d) :: r =>
    if k = key then some (d + n, (k, d + n) :: r)
    else (add? key n r).map fun (m, s) => (m, (k, d) :: s)

theorem waiting_add? {key : String} {d e : Degrees} {n : Int}
    (h : add? key (-1) d = some (n, e)) :
    e.waiting + (if n = 0 then 1 else 0) ≤ d.waiting := by
  induction d generalizing e with
  | nil => simp [add?] at h
  | cons entry r ih =>
    obtain ⟨k, x⟩ := entry
    unfold add? at h
    split at h
    · simp only [Option.some.injEq, Prod.mk.injEq] at h
      obtain ⟨rfl, rfl⟩ := h
      simp only [waiting, List.countP_cons, decide_eq_true_eq]
      repeat' split
      all_goals omega
    · cases hr : add? key (-1) r with
      | none => simp [hr] at h
      | some pair =>
        simp only [hr, Option.map_some, Option.some.injEq, Prod.mk.injEq] at h
        obtain ⟨rfl, rfl⟩ := h
        have := ih hr
        simp only [waiting, List.countP_cons] at this ⊢
        omega

end Degrees

def countInto : List Link → Degrees → Except PipelineError Degrees
  | [], d => pure d
  | l :: r, d =>
    match Degrees.add? l.target 1 d with
    | none => throw (.strayEnd l.target)
    | some (_, e) => countInto r e

/-- Closes links; a member whose last link is closed joins the queue. -/
def close : List Link → Degrees → List String → Except PipelineError (Degrees × List String)
  | [], d, queue => pure (d, queue)
  | l :: r, d, queue =>
    match Degrees.add? l.target (-1) d with
    | none => throw (.strayEnd l.target)
    | some (n, e) => close r e (if n = 0 then queue ++ [l.target] else queue)

theorem measure_close {links : List Link} {d e : Degrees} {queue rest : List String}
    (h : close links d queue = .ok (e, rest)) :
    e.waiting + rest.length ≤ d.waiting + queue.length := by
  induction links generalizing d queue with
  | nil =>
    simp only [close, pure, Except.pure, Except.ok.injEq, Prod.mk.injEq] at h
    obtain ⟨rfl, rfl⟩ := h
    exact Nat.le_refl _
  | cons l r ih =>
    unfold close at h
    split at h
    · simp [throw, throwThe, MonadExceptOf.throw] at h
    · rename_i n f hf
      have hn := Degrees.waiting_add? hf
      have hr := ih h
      by_cases hz : n = 0
      · simp only [hz, if_true, List.length_append, List.length_singleton] at hn hr
        omega
      · simp only [hz, if_false] at hn hr
        omega

def arrangeFrom (p : Pipeline) (d : Degrees) :
    List String → Except PipelineError (List String)
  | [] => pure []
  | key :: queue =>
    match _h : close (p.linksOn key .output) d queue with
    | .error e => throw e
    | .ok (e, rest) => do pure (key :: (← p.arrangeFrom e rest))
termination_by queue => d.waiting + queue.length
decreasing_by
  have := measure_close _h
  simp only [List.length_cons]
  omega

def arrange (p : Pipeline) : Except PipelineError (List String) := do
  let d ← countInto p.links (p.keys.map fun key => (key, 0))
  let free := (d.filter fun e => e.2 == 0).map (·.1)
  let placed ← p.arrangeFrom d free
  if placed.length = p.size then pure placed
  else throw (.cycle (p.keys.filter fun key => !placed.contains key))

end Sluice.Pipeline
