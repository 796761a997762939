import Sluice.Proofs.Steps
import Sluice.Proofs.Writing.Values
import Sluice.Reading

/-! Values given to a job that is read: each argument gets the value that was written for it, and
the others keep none. -/

namespace Sluice

open CommandLine

namespace Job

theorem giveFirst_append {fits : Argument → Bool} {given : Option String}
    {before after : List Argument} {a : Argument} (hb : ∀ b ∈ before, fits b = false)
    (ha : fits a = true) : giveFirst fits given (before ++ a :: after) =
      some (before ++ { a with given := given } :: after) := by
  induction before with
  | nil => simp [giveFirst, ha]
  | cons b r ih =>
    rw [List.cons_append, giveFirst, hb b (by simp), ih fun c hc => hb c (by simp [hc])]
    rfl

theorem Proper.names_nodup {j : Job} (h : j.Proper) :
    (j.arguments.map fun a => Text.lower a.name).Nodup := by
  have hnames : (j.arguments.map fun a => Text.lower a.name) =
      j.task.parameters.map fun p => Text.lower p.name := by
    rw [← h.arguments, List.map_map]
    rfl
  rw [hnames]
  have := h.task
  unfold Task.checked at this
  split at this
  · cases this
  · split at this
    · cases this
    · split at this
      · assumption
      · cases this

def blank (a : Argument) : Argument :=
  { a with given := none }

theorem ofTask_eq {j : Job} (h : j.Proper) (serial : Nat) :
    Job.ofTask serial j.task = ⟨serial, j.task, j.arguments.map blank⟩ := by
  rw [Job.ofTask, ← h.arguments, List.map_map]
  rfl

end Job

namespace Reading

open Job

variable {settings : Settings} {c : Command}

theorem giveToken_keyed {c : Command} {j : Job} {before after : List Argument} {a : Argument}
    (hj : j.arguments = before ++ a :: after) {key value : String}
    (hb : ∀ b ∈ before, b.isNamed key = false) (ha : a.isNamed key = true) :
    giveToken c j ⟨some key, value⟩ =
      .ok { j with arguments := before ++ { a with given := some value } :: after } := by
  simp only [giveToken, give?, hj, giveFirst_append hb ha, Option.map_some]
  rfl

theorem foldlM_giveToken {j : Job} (before rest : List Argument)
    (hj : j.arguments = before.map (Argument.readBack settings) ++ rest.map blank)
    (names : ((before ++ rest).map fun a => Text.lower a.name).Nodup) :
    ((rest.filter (Argument.isWritten settings)).map fun a =>
        (⟨some a.name, a.value⟩ : Token)).foldlM (giveToken c) j =
      .ok { j with arguments := (before ++ rest).map (Argument.readBack settings) } := by
  induction rest generalizing before j with
  | nil =>
    simp only [List.map_nil, List.append_nil] at hj
    simp [← hj]
  | cons a r ih =>
    have hnames : ((before ++ [a] ++ r).map fun b => Text.lower b.name).Nodup := by
      simpa using names
    cases hw : a.isWritten settings with
    | false =>
      have hback : a.readBack settings = blank a := by simp [Argument.readBack, hw, blank]
      rw [List.filter_cons_of_neg (by simp [hw])]
      have := ih (j := j) (before ++ [a]) (by simp [hj, hback]) hnames
      simpa using this
    | true =>
      have hback : a.readBack settings = { blank a with given := some a.value } := by
        simp [Argument.readBack, hw, blank]
      have hbefore : ∀ b ∈ before.map (Argument.readBack settings), b.isNamed a.name = false := by
        intro b hb
        obtain ⟨e, he, rfl⟩ := List.mem_map.1 hb
        rw [List.map_append, List.map_cons, List.nodup_append] at names
        have := names.2.2 _ (List.mem_map_of_mem he) _ List.mem_cons_self
        simpa [Argument.isNamed, Argument.readBack, Argument.name] using this
      have hself : (blank a).isNamed a.name = true := by
        simp [Argument.isNamed, blank, Argument.name]
      rw [List.filter_cons_of_pos hw, List.map_cons, List.foldlM_cons,
        giveToken_keyed (by rw [hj, List.map_cons]) hbefore hself, ok_bind]
      have := ih (j := { j with arguments := before.map (Argument.readBack settings) ++
          { blank a with given := some a.value } :: r.map blank }) (before ++ [a])
        (by simp [hback]) hnames
      simpa using this

theorem startsPipe_intercalate {s : String} (h : startsPipe s.toList = true) (r : List String) :
    ∃ e es, (" ".intercalate (s :: r)).toList = e :: es ∧ startsPipe (e :: es) = true := by
  obtain ⟨more, hmore⟩ : ∃ more, (" ".intercalate (s :: r)).toList = s.toList ++ more := by
    cases r with
    | nil => exact ⟨[], by simp⟩
    | cons t r => exact ⟨_, by rw [String.intercalate_cons_cons, String.append_assoc,
        String.toList_append]⟩
  have hlong := startsPipe_append h more
  rw [← hmore] at hlong
  cases hcs : (" ".intercalate (s :: r)).toList with
  | nil =>
    rw [hcs] at hlong
    exact absurd hlong (by decide)
  | cons e es =>
    rw [hcs] at hlong
    exact ⟨e, es, rfl, hlong⟩

theorem verbatimText_value {value : String} (htrim : Text.trim value = value)
    (hpipe : Pipeless value.toList) {pipes : List String}
    (hstart : ∀ s ∈ pipes.head?, startsPipe s.toList = true) :
    verbatimText (" ".intercalate (value :: pipes)) = value := by
  have hspace : Text.Chars.trim (value.toList ++ [' ']) = value.toList := by
    have := trim_padding [] [' '] (Writing.trimmed_value htrim) (by simp) (by decide)
    simpa using this
  cases pipes with
  | nil =>
    rw [String.intercalate_singleton, verbatimText, hpipe.beforePipe_eq,
      Text.Chars.trim_eq_self (Writing.trimmed_value htrim), String.ofList_toList]
  | cons s r =>
    obtain ⟨e, es, hs, hes⟩ := startsPipe_intercalate (hstart s rfl) r
    rw [verbatimText, String.intercalate_cons_of_ne_nil (by simp), String.toList_append,
      String.toList_append, hs, List.append_assoc, show " ".toList = [' '] from rfl,
      List.singleton_append, beforePipe_append hpipe hes, hspace, String.ofList_toList]

theorem verbatimText_pipes {pipes : List String}
    (hstart : ∀ s ∈ pipes.head?, startsPipe s.toList = true) :
    verbatimText (" ".intercalate pipes) = "" := by
  cases pipes with
  | nil => rfl
  | cons s r =>
    obtain ⟨e, es, hs, hes⟩ := startsPipe_intercalate (hstart s rfl) r
    rw [verbatimText, hs, beforePipe, hes]
    rfl

theorem giveAll_verbatim {j : Job} {d : Dialect} {addToolPath : Bool} {a : Argument}
    (proper : j.Proper) (hone : j.arguments = [a]) (hpos : a.parameter.positional = true)
    (hv : a.parameter.verbatim = true)
    (survives : j.Survives settings d) {pipes : List String}
    (hstart : ∀ s ∈ pipes.head?, startsPipe s.toList = true)
    (htext : c.text = " ".intercalate
      (Writing.valueParts settings (Layout.ofDialect d addToolPath) j ++ pipes)) (serial : Nat) :
    giveAll c (Job.ofTask serial j.task) =
      .ok ⟨serial, j.task, j.arguments.map (Argument.readBack settings)⟩ := by
  have hgiven : (if verbatimText c.text = "" then none else some (verbatimText c.text)) =
      (a.readBack settings).given := by
    rw [htext, Writing.valueParts, hone]
    cases hp : Writing.valuePart? settings (Layout.ofDialect d addToolPath) a with
    | none =>
      have hw := Writing.isSome_valuePart? settings (Layout.ofDialect d addToolPath) a
      rw [hp, Option.isSome_none] at hw
      simp [hp, verbatimText_pipes hstart, Argument.readBack, ← hw]
    | some part =>
      have hw := Writing.isSome_valuePart? settings (Layout.ofDialect d addToolPath) a
      rw [hp, Option.isSome_some] at hw
      obtain ⟨tame, _⟩ := survives a (by simp [hone]) hw.symm
      obtain ⟨hpart, hne⟩ := Writing.valuePart?_verbatim hpos hv hp
      have htext := verbatimText_value tame.trimmed (tame.whole hv).1 hstart
      simp [hp, hpart, htext, hne, Argument.readBack, ← hw]
  rw [ofTask_eq proper, hone]
  simp only [giveAll, List.map_cons, List.map_nil]
  rw [if_pos (by simp [blank, hv]), hgiven]
  simp [give?, giveFirst, blank, hv, Argument.readBack]

theorem giveAll_eq {j : Job} {d : Dialect} (addToolPath : Bool) (pipes : List String)
    (proper : j.Proper) (plain : j.task.Plain) (survives : j.Survives settings d)
    (hstart : ∀ s ∈ pipes.head?, startsPipe s.toList = true)
    (htext : c.text = " ".intercalate
      (Writing.valueParts settings (Layout.ofDialect d addToolPath) j ++ pipes))
    (htokens : (∀ a ∈ j.arguments, a.parameter.verbatim = false) → c.parameters =
      (j.arguments.filter (Argument.isWritten settings)).map fun a => ⟨some a.name, a.value⟩)
    (serial : Nat) :
    giveAll c (Job.ofTask serial j.task) =
      .ok ⟨serial, j.task, j.arguments.map (Argument.readBack settings)⟩ := by
  rcases proper.verbatim_cases plain with hnone | ⟨a, ha, hpos, hv, _⟩
  · have hfilter : ((Job.ofTask serial j.task).arguments.filter fun a => a.parameter.verbatim) =
        [] := by
      rw [ofTask_eq proper, List.filter_eq_nil_iff]
      rintro _ hmem
      obtain ⟨a, ha, rfl⟩ := List.mem_map.1 hmem
      simpa [blank] using hnone a ha
    rw [giveAll, hfilter, if_neg (by simp), htokens hnone, ofTask_eq proper,
      foldlM_giveToken [] j.arguments rfl proper.names_nodup]
    rfl
  · exact giveAll_verbatim proper ha hpos hv survives hstart htext serial

end Reading

end Sluice
