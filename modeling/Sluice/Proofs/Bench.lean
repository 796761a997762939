import Sluice.Bench
import Sluice.Proofs.Pipeline.Changes

/-! Calls that fail change nothing. Whatever a call is given, it follows its references and makes
its checks before it changes anything; once it changes something, it goes through to the end. -/

namespace Sluice.Bench

open Pipeline (Edit)

inductive Call
  | add : Catalogue → StageRef → (id : Option String) → Call
  | remove : StageRef → Call
  | move : StageRef → (position : Int) → Call
  | connect : (source target : StageRef) → (sourceSlot targetSlot : Option Int) → Call
  | disconnect : Link → Call
  | unlink : ConnectorRef → Call
  | reorder : Option Connector → List Link → Call

def perform (b : Bench) : Call → Bench × Option BenchError
  | .add catalogue r id => settled b Prod.snd (b.add catalogue r id)
  | .remove r => ((b.remove r).1, failure? (b.remove r).2)
  | .move r position => settled b id (b.move r position)
  | .connect source target i j => settled b Prod.snd (b.connect source target i j)
  | .disconnect l =>
    ({ b with pipeline := (b.pipeline.disconnect l).1 }, (b.pipeline.disconnect l).2.map .pipeline)
  | .unlink c => ((b.unlink c).1, failure? (b.unlink c).2)
  | .reorder c links => settled b id (b.reorder c links)

/-- One change: to the pipeline, to the ids of the held views of a job, or to the serial number of
the next job. -/
inductive Change
  | ofPipeline : Pipeline.Change → Change
  | rename : (serial : Nat) → (id : String) → Change
  | advance : Change

def Change.run (b : Bench) : Change → Except BenchError Bench
  | .ofPipeline c => do
    let p ← lift .pipeline (c.run b.pipeline)
    pure { b with pipeline := p }
  | .rename serial id =>
    pure { b with held := b.modifyHeld serial fun s => { s with id := some id } }
  | .advance => pure { b with next := b.next + 1 }

def editing (b : Bench) (e : Edit) : Except BenchError (List Change) :=
  lift .pipeline ((e.plan b.pipeline).map fun changes => changes.map .ofPipeline)

def plan (b : Bench) : Call → Except BenchError (List Change)
  | .add catalogue r id => do
    match ← b.referent r, id.map Text.trim with
    | .id word, _ => do
      let t ← lift .catalogue (catalogue.orBundled.find word)
      let entry ← b.editing (.add (Stage.ofTask b.next t none) id)
      pure (entry ++ [.advance])
    | .stage s, _ => do
      let entry ← b.editing (.add s id)
      pure (.rename s.serial (Text.trim (b.pipeline.entryKey s id)) :: entry)
    | .nothing, some id =>
      if b.pipeline.contains id then throw (.pipeline (.taken id)) else throw .absent
    | .nothing, none => throw .absent
  | .remove r => do b.editing (.remove (← b.memberId r))
  | .move r position => do b.editing (.move (← b.memberId r) position)
  | .connect source target i j => do
    match ← b.endIds source target with
    | (some a, some c) => b.editing (.connect a c i j)
    | (some a, none) => do
      let _ ← lift .pipeline (b.pipeline.member a)
      throw (.pipeline noEnd)
    | (none, _) => throw (.pipeline noEnd)
  | .disconnect l => b.editing (.disconnect l)
  | .unlink c => do b.editing (.unlink (← b.connector c))
  | .reorder c links => do b.editing (.reorder (← needed c) links)

variable {b : Bench}

def edited (b : Bench) (e : Edit) : Bench × Option BenchError :=
  ({ b with pipeline := (e.outcome b.pipeline).1 }, (e.outcome b.pipeline).2.map .pipeline)

theorem run_ofPipeline {changes : List Pipeline.Change} {q : Pipeline}
    (h : changes.foldlM Pipeline.Change.run b.pipeline = .ok q) :
    (changes.map Change.ofPipeline).foldlM Change.run b = .ok { b with pipeline := q } := by
  induction changes generalizing b with
  | nil => exact congrArg (fun p => Except.ok { b with pipeline := p }) (pure_eq_ok.1 h)
  | cons c r ih =>
    rw [List.foldlM_cons, bind_eq_ok] at h
    obtain ⟨p, first, rest⟩ := h
    have run : Change.run b (.ofPipeline c) = .ok { b with pipeline := p } := by
      rw [Change.run, first]
      rfl
    rw [List.map_cons, List.foldlM_cons, run, ok_bind]
    exact ih (b := { b with pipeline := p }) rest

theorem editing_cases (h : b.pipeline.Sound) (e : Edit) :
    (∃ d, b.editing e = .error (.pipeline d) ∧ e.outcome b.pipeline = (b.pipeline, some d)) ∨
      ∃ (changes : List Pipeline.Change) (q : Pipeline),
        b.editing e = .ok (changes.map .ofPipeline) ∧
        changes.foldlM Pipeline.Change.run b.pipeline = .ok q ∧
        e.outcome b.pipeline = (q, none) := by
  have planned := h.planned e
  unfold editing
  generalize e.plan b.pipeline = plan at planned ⊢
  generalize e.outcome b.pipeline = outcome at planned ⊢
  cases planned with
  | refused d => exact .inl ⟨d, rfl, rfl⟩
  | done run => exact .inr ⟨_, _, rfl, run, rfl⟩

theorem planned_edit (h : b.pipeline.Sound) (e : Edit) :
    CarriedOut Change.run b (b.editing e) (b.edited e) := by
  unfold edited
  rcases editing_cases h e with ⟨d, editing, outcome⟩ | ⟨changes, q, editing, run, outcome⟩
  · rw [editing, outcome]
    exact .refused _
  · rw [editing, outcome]
    exact .done (run_ofPipeline run)

theorem add_named {p q : Pipeline} {s : Stage} {id : Option String} {key : String}
    (h : p.add s id = .ok (key, q)) : key = p.entryKey s id ∧
      (q.modifyJob s.serial fun m => { m with id := Text.trim key }) = q := by
  unfold Pipeline.add at h
  simp only [check_eq_ok] at h
  obtain ⟨_, h⟩ := h
  split at h
  · simp at h
  · rename_i newId named
    obtain ⟨_, rfl⟩ := Pipeline.idOf_eq_ok.1 named
    simp only [pure_eq_ok, Prod.mk.injEq] at h
    obtain ⟨rfl, rfl⟩ := h
    refine ⟨rfl, ?_⟩
    simp only [Pipeline.modifyJob, List.map_append, List.map_map, List.map_singleton, if_true]
    congr 2
    refine List.map_congr_left fun m _ => ?_
    by_cases hm : m.serial = s.serial <;> simp [hm]

theorem adding_cases (h : b.pipeline.Sound) (s : Stage) (id : Option String) :
    (∃ d, b.editing (.add s id) = .error (.pipeline d) ∧ b.pipeline.add s id = .error d) ∨
      ∃ (changes : List Pipeline.Change) (key : String) (q : Pipeline),
        b.editing (.add s id) = .ok (changes.map .ofPipeline) ∧
        changes.foldlM Pipeline.Change.run b.pipeline = .ok q ∧
        b.pipeline.add s id = .ok (key, q) := by
  rcases editing_cases h (.add s id) with
    ⟨d, editing, outcome⟩ | ⟨changes, q, editing, run, outcome⟩
  · exact .inl ⟨d, editing, (settled_eq_some.1 outcome).2⟩
  · obtain ⟨⟨key, r⟩, added, rfl⟩ := settled_eq_none.1 outcome
    exact .inr ⟨changes, key, r, editing, run, added⟩

theorem planned_addTask (h : b.pipeline.Sound) (catalogue : Catalogue) (word : String)
    (id : Option String) :
    CarriedOut Change.run b
      (do
        let t ← lift .catalogue (catalogue.orBundled.find word)
        let entry ← b.editing (.add (Stage.ofTask b.next t none) id)
        pure (entry ++ [.advance]))
      (settled b Prod.snd (b.addTask catalogue word id)) := by
  unfold addTask
  cases catalogue.orBundled.find word with
  | error e => exact .refused _
  | ok t =>
    simp only [lift, pure_bind]
    rcases adding_cases h (Stage.ofTask b.next t none) id with
      ⟨d, editing, added⟩ | ⟨changes, key, q, editing, run, added⟩
    · rw [editing, added]
      exact .refused _
    · rw [editing, added]
      refine .done ?_
      rw [List.foldlM_append, run_ofPipeline run]
      rfl

theorem planned_addStage (h : b.pipeline.Sound) (s : Stage) (id : Option String) :
    CarriedOut Change.run b
      (do
        let entry ← b.editing (.add s id)
        pure (.rename s.serial (Text.trim (b.pipeline.entryKey s id)) :: entry))
      (settled b Prod.snd (b.addStage s id)) := by
  unfold addStage
  rcases adding_cases h s id with ⟨d, editing, added⟩ | ⟨changes, key, q, editing, run, added⟩
  · rw [editing, added]
    exact .refused _
  · obtain ⟨rfl, named⟩ := add_named added
    rw [editing, added]
    have outcome : ({ b with pipeline := q } : Bench).setIds s.serial
        (Text.trim (b.pipeline.entryKey s id)) =
        { b with
          pipeline := q
          held := b.modifyHeld s.serial fun t =>
            { t with id := some (Text.trim (b.pipeline.entryKey s id)) } } := by
      unfold setIds
      rw [named]
      rfl
    refine .done ?_
    change _ = Except.ok (({ b with pipeline := q } : Bench).setIds s.serial
      (Text.trim (b.pipeline.entryKey s id)))
    rw [outcome, List.foldlM_cons]
    exact run_ofPipeline run

theorem planned_add (h : b.pipeline.Sound) (catalogue : Catalogue) (r : StageRef)
    (id : Option String) :
    CarriedOut Change.run b (b.plan (.add catalogue r id)) (b.perform (.add catalogue r id)) := by
  simp only [plan, perform, Bench.add]
  rcases b.referent r with e | word | s | _
  · exact .refused e
  · exact planned_addTask h catalogue word id
  · exact planned_addStage h s id
  · cases id.map Text.trim with
    | none => exact .refused _
    | some key =>
      simp only [ok_bind]
      split <;> exact .refused _

theorem planned (h : b.pipeline.Sound) (call : Call) :
    CarriedOut Change.run b (b.plan call) (b.perform call) := by
  cases call with
  | add catalogue r id => exact planned_add h catalogue r id
  | remove r =>
    cases found : b.memberId r with
    | error e =>
      simp only [plan, perform, Bench.remove, found]
      exact .refused e
    | ok id =>
      have edit := planned_edit h (.remove id)
      simp only [edited, Edit.outcome] at edit
      simp only [plan, perform, Bench.remove, found, ok_bind]
      rcases removed : b.pipeline.remove id with ⟨p, e | m⟩ <;> rw [removed] at edit <;> exact edit
  | move r position =>
    cases found : b.memberId r with
    | error e =>
      simp only [plan, perform, Bench.move, found]
      exact .refused e
    | ok id =>
      have edit := planned_edit h (.move id position)
      simp only [edited, Edit.outcome] at edit
      simp only [plan, perform, Bench.move, found, ok_bind]
      cases moved : b.pipeline.move id position <;> rw [moved] at edit <;> exact edit
  | connect source target i j =>
    simp only [plan, perform, Bench.connect]
    rcases b.endIds source target with e | ⟨_ | a, _ | c⟩
    · exact .refused e
    · exact .refused _
    · exact .refused _
    · simp only [ok_bind]
      cases b.pipeline.member a <;> exact .refused _
    · have edit := planned_edit h (.connect a c i j)
      simp only [edited, Edit.outcome] at edit
      simp only [ok_bind]
      cases made : b.pipeline.connect a c i j <;> rw [made] at edit <;> exact edit
  | disconnect l => exact planned_edit h (.disconnect l)
  | unlink c =>
    cases found : b.connector c with
    | error e =>
      simp only [plan, perform, Bench.unlink, found]
      exact .refused e
    | ok d =>
      have edit := planned_edit h (.unlink d)
      simp only [edited, Edit.outcome] at edit
      simp only [plan, perform, Bench.unlink, found, ok_bind]
      rcases unlinked : b.pipeline.unlink d with ⟨p, e | m⟩ <;> rw [unlinked] at edit <;> exact edit
  | reorder c links =>
    simp only [plan, perform, Bench.reorder]
    cases needed c with
    | error e => exact .refused e
    | ok d =>
      have edit := planned_edit h (.reorder d links)
      simp only [edited, Edit.outcome] at edit
      simp only [ok_bind]
      cases made : b.pipeline.reorder d links <;> rw [made] at edit <;> exact edit

/-- Calls are all or nothing. A call does what its checks and then its changes one by one do; and if
it fails, it fails in its checks, so that the pipeline, its links, the ids of all stages and what is
held are as before. -/
theorem all_or_nothing (b : Bench) (built : Pipeline.Built Edit.Regular b.pipeline) (call : Call) :
    execute Change.run b (b.plan call) = b.perform call ∧
      ∀ e, (b.perform call).2 = some e → (b.perform call).1 = b ∧ b.plan call = .error e := by
  have planned := planned built.sound call
  exact ⟨planned.execute_eq, fun e failed => planned.of_error failed⟩

theorem fork_all_or_nothing :
    execute Change.run ⟨Pipeline.fork, [], 3⟩
      (plan ⟨Pipeline.fork, [], 3⟩ (.disconnect ⟨"first", 0, "source_2", 0⟩)) =
      perform ⟨Pipeline.fork, [], 3⟩ (.disconnect ⟨"first", 0, "source_2", 0⟩) ∧
      ∀ e, (perform ⟨Pipeline.fork, [], 3⟩ (.disconnect ⟨"first", 0, "source_2", 0⟩)).2 = some e →
        (perform ⟨Pipeline.fork, [], 3⟩ (.disconnect ⟨"first", 0, "source_2", 0⟩)).1 =
            ⟨Pipeline.fork, [], 3⟩ ∧
          plan ⟨Pipeline.fork, [], 3⟩ (.disconnect ⟨"first", 0, "source_2", 0⟩) = .error e :=
  all_or_nothing ⟨Pipeline.fork, [], 3⟩ Pipeline.fork_built.regular
    (.disconnect ⟨"first", 0, "source_2", 0⟩)

end Sluice.Bench
