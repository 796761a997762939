import Sluice.Proofs.CommandLine.Commands
import Sluice.Proofs.Pipeline.Jobs
import Sluice.Proofs.Reading.Lookup
import Sluice.Proofs.Writing.Values

/-! Where the values of a pipeline that is read come from. Each member has the task and the values
of one command of the text, so that nothing in its values could start a command or name a pipe. -/

namespace Sluice

open CommandLine

namespace Job

variable {P : Parameter → String → Prop} {j k : Job} {fits : Argument → Bool}
  {given : Option String}

def Gives (P : Parameter → String → Prop) (j : Job) : Prop :=
  ∀ a ∈ j.arguments, ∀ v ∈ a.given, P a.parameter v

theorem giveFirst_eq_some {as bs : List Argument} (h : giveFirst fits given as = some bs) :
    bs.map Argument.parameter = as.map Argument.parameter ∧
      ∀ b ∈ bs, b ∈ as ∨ b.given = given ∧ ∃ a ∈ as, b.parameter = a.parameter := by
  induction as generalizing bs with
  | nil => cases h
  | cons a r ih =>
    rw [giveFirst] at h
    split at h
    · obtain rfl := Option.some.inj h
      refine ⟨rfl, List.forall_mem_cons.2 ⟨.inr ⟨rfl, a, List.mem_cons_self, rfl⟩, ?_⟩⟩
      exact fun b hb => .inl (List.mem_cons_of_mem _ hb)
    · obtain ⟨cs, hcs, rfl⟩ := Option.map_eq_some_iff.1 h
      obtain ⟨same, from_⟩ := ih hcs
      refine ⟨congrArg (a.parameter :: ·) same,
        List.forall_mem_cons.2 ⟨.inl List.mem_cons_self, ?_⟩⟩
      intro b hb
      refine (from_ b hb).imp (List.mem_cons_of_mem _) (And.imp_right ?_)
      rintro ⟨d, hd, heq⟩
      exact ⟨d, List.mem_cons_of_mem _ hd, heq⟩

theorem Proper.of_give? (h : j.Proper) (hk : j.give? fits given = some k) :
    k.Proper ∧ k.task = j.task := by
  obtain ⟨arguments, hgiven, rfl⟩ := Option.map_eq_some_iff.1 hk
  exact ⟨⟨(giveFirst_eq_some hgiven).1.trans h.arguments, h.parameters, h.task⟩, rfl⟩

theorem Gives.of_give? (h : j.Gives P) (hk : j.give? fits given = some k)
    (new : ∀ a ∈ j.arguments, ∀ v ∈ given, P a.parameter v) : k.Gives P := by
  obtain ⟨arguments, hgiven, rfl⟩ := Option.map_eq_some_iff.1 hk
  intro b hb v hv
  rcases (giveFirst_eq_some hgiven).2 b hb with hold | ⟨hnew, a, ha, hparameter⟩
  · exact h b hold v hv
  · rw [hparameter]
    exact new a ha v (hnew ▸ hv)

end Job

def Acceptable (a : Parameter) (value : String) : Prop :=
  Settled value ∧
    (a.verbatim = true → Pipeless value.toList ∧ startsDashes value.toList = false)

namespace Reading

open Pipeline

variable {catalogue : Catalogue} {strict : Bool} {s t : Reading} {c : Command} {j k : Job}
  {marker text : String}

theorem acceptable_of_giveAll (proper : j.Proper) (plain : j.task.Plain)
    (new : ∀ a ∈ j.arguments, a.given = none) (hc : c ∈ commands marker text)
    (h : giveAll c j = .ok k) : k.Proper ∧ k.task = j.task ∧ k.Gives Acceptable := by
  have gives : j.Gives Acceptable := fun a ha v hv => by simp [new a ha] at hv
  rcases giveAll_cases h with (rfl | ⟨fits, given, whole, hk⟩) | ⟨hmany, run⟩
  · exact ⟨proper, rfl, gives⟩
  · obtain ⟨hproper, htask⟩ := proper.of_give? hk
    refine ⟨hproper, htask, gives.of_give? hk fun a _ v hv => ?_⟩
    obtain ⟨settled, plainly⟩ := settled_verbatimText hc
    obtain rfl := whole v hv
    exact ⟨settled, fun _ => plainly⟩
  · have keyed : ∀ a ∈ j.task.parameters, a.verbatim = false := by
      rw [← proper.arguments, List.forall_mem_map]
      rcases proper.verbatim_cases plain with hnone | ⟨a, hone, _, hv, _⟩
      · exact hnone
      · exact absurd (by simp [hone, hv]) hmany
    refine foldlM_keeps (P := fun k : Job => k.Proper ∧ k.task = j.task ∧ k.Gives Acceptable)
      (fun t ht b d hb hd => ?_) ⟨proper, rfl, gives⟩ run
    obtain ⟨hproper, htask, hgives⟩ := hb
    obtain ⟨fits, hgive⟩ := giveToken_eq_ok hd
    obtain ⟨hproper', htask'⟩ := hproper.of_give? hgive
    refine ⟨hproper', htask'.trans htask, hgives.of_give? hgive fun a ha v hv => ?_⟩
    obtain rfl := Option.some.inj hv
    refine ⟨settled_of_parameter hc ht, fun hverbatim => ?_⟩
    rw [keyed _ (htask ▸ hproper.argument ha)] at hverbatim
    cases hverbatim

def FromCommands (catalogue : Catalogue) (cs : List Command) (p : Pipeline) : Prop :=
  ∀ m ∈ p.members, ∃ c ∈ cs, Given catalogue c m.toJob

end Reading

namespace Reader

open Pipeline Reading

variable {r : Reader} {text : String} {name : Option String} {q : Pipeline}

theorem fromCommands_of_read (read : r.read text name = .ok q) :
    FromCommands r.catalogue.orBundled (commands r.marker text) q := by
  obtain ⟨cs, cut, enrolled⟩ := enrolled_of_read read
  obtain rfl := commands_of_read cut
  intro m hm
  obtain ⟨n, hn⟩ := List.getElem?_of_mem hm
  obtain ⟨c, hc, enters⟩ := enrolled.enters hn
  exact ⟨c, hc, n, m.task, enters.task, enters.values⟩

end Reader

end Sluice
