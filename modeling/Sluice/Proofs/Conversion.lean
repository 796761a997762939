import Sluice.Proofs.Catalogue
import Sluice.Proofs.Reading.Strict
import Sluice.Proofs.Reading.Values
import Sluice.Proofs.RoundTrip

/-! Command lines that are read, written and read again. What is read stands in a dependency order
and is written in it, and the values of each task come back, as long as what is written for them
does not end early at a quote or hold a marker that breaks a line. -/

namespace Sluice

open CommandLine Pipeline Writing Reading

namespace Argument

variable {a : Argument} {settings : Settings} {d : Dialect}

instance (settings : Settings) (d : Dialect) (a : Argument) :
    Decidable (a.Restorable settings d) :=
  decidable_of_iff (_ ∧ _ ∧ _) ⟨fun ⟨h, h', h''⟩ => ⟨h, h', h''⟩, fun ⟨h, h', h''⟩ => ⟨h, h', h''⟩⟩

theorem tame_of_acceptable (h : Acceptable a.parameter a.value) : a.Tame :=
  ⟨h.1.1, h.1.2, h.2⟩

theorem restorable_of_word (hd : d ∈ Dialect.all) (plain : a.parameter.Plain)
    (checked : a.parameter.checked = .ok a.parameter) (keyed : a.parameter.verbatim = false)
    (nonblank : Text.holdsBlank a.value = false)
    (bare : ∀ c ∈ a.value.toList.head?, isQuote c = false) : a.Restorable settings d := by
  refine ⟨fun part hpart => ?_, fun _ hb => ?_, fun _ _ => bare⟩
  · obtain ⟨m, ms, hm, marker⟩ := exists_marker hd
    have hvalue : Unbroken m ms false a.value.toList :=
      unbroken_word (marker.blank m (by simp)) marker.space
        (by simpa [Text.holdsBlank] using nonblank)
    exact normalize_keyed hd hm marker plain checked keyed hvalue hpart
  · rw [nonblank] at hb
    cases hb

end Argument

theorem Job.Proper.survives {j : Job} {settings : Settings} {d : Dialect} (hd : d ∈ Dialect.all)
    (proper : j.Proper) (faithful : j.task.Faithful) (gives : j.Gives Acceptable)
    (restorable : ∀ a ∈ j.arguments, a.given.isSome = true → a.isWritten settings = true →
      a.Restorable settings d) : j.Survives settings d := by
  intro a ha hw
  have hparameter := proper.argument ha
  cases hgiven : a.given with
  | some v =>
    have hvalue : a.value = v := by simp [Argument.value, hgiven]
    refine ⟨Argument.tame_of_acceptable ?_, restorable a ha (by simp [hgiven]) hw⟩
    rw [hvalue]
    exact gives a ha v hgiven
  | none =>
    -- what is written without being given is the default
    have hdefault : a.value ≠ "" := by
      have hnew : a.isDefault = true := by simp [Argument.isDefault, hgiven]
      have := hw
      simp only [Argument.isWritten, hnew, Bool.not_true, Bool.false_or, Bool.false_and,
        Bool.or_false, Bool.and_eq_true, bne_iff_ne, ne_eq] at this
      exact this.2
    obtain ⟨v, hv⟩ : ∃ v, a.parameter.default = some v := by
      refine Option.ne_none_iff_exists'.1 fun hnone => hdefault ?_
      simp [Argument.value, Argument.fallback, hgiven, hnone]
    have hvalue : a.value = v := by simp [Argument.value, Argument.fallback, hgiven, hv]
    obtain ⟨nonblank, quoteless⟩ := faithful.defaults _ hparameter v hv
    rw [← hvalue] at nonblank quoteless
    have keyed : a.parameter.verbatim = false := by
      rcases proper.verbatim_cases faithful.plain with hnone | ⟨b, hb, _, _, hb'⟩
      · exact hnone a ha
      · obtain rfl : a = b := by simpa [hb] using ha
        rw [hb'] at hv
        cases hv
    have letters : ∀ c ∈ a.value.toList, Text.isBlank c = false := by
      simpa [Text.holdsBlank] using nonblank
    refine ⟨⟨Text.trim_of_nonblank nonblank, calm_of_nonblank letters, by simp [keyed]⟩, ?_⟩
    exact Argument.restorable_of_word hd (faithful.plain.parameters _ hparameter)
      (proper.checked ha) keyed nonblank fun c hc => quoteless c (List.mem_of_mem_head? hc)

theorem Writing.readyOrder_of_dependencyOrder {p : Pipeline} (hp : p.Sound) (named : p.Named)
    {among : List String} {ms : List Member} (inside : ∀ m ∈ ms, m ∈ p.members)
    {done written : List String} (sub : done ⊆ written)
    (h : DependencyOrder p done (ms.map Member.id)) : ReadyOrder p among written ms := by
  induction ms generalizing done written with
  | nil => trivial
  | cons m r ih =>
    refine ⟨fun l hl => ?_, ih (fun k hk => inside k (by simp [hk])) ?_ h.2⟩
    · obtain ⟨hlinks, htarget, _⟩ := (mem_feeds hp named (inside m (by simp))).1 hl
      exact sub (h.1 l hlinks htarget)
    · exact List.append_subset.2
        ⟨fun id hid => List.mem_cons_of_mem _ (sub hid), by simp⟩

namespace Pipeline

variable {p : Pipeline}

theorem Growing.readyOrder (h : p.Growing) :
    ReadyOrder p (p.members.map Member.id) [] p.members := by
  refine readyOrder_of_dependencyOrder h.sound h.named (fun _ hm => hm) (List.Subset.refl []) ?_
  have ids : p.members.map Member.id = p.keys := List.map_congr_left h.named
  rw [ids]
  exact h.forward.dependencyOrder h.sound.keys_nodup

theorem Growing.write_eq (h : p.Growing) {settings : Settings}
    (spoken : ∀ m ∈ p.members, m.task.Spoken settings) (layout : Layout) :
    p.write settings layout none =
      .ok ((through p settings layout (p.members.map Member.id) p.members).text layout) := by
  change p.write settings layout (some (p.members.map Member.toStage)) = _
  rw [Pipeline.write_eq h.sound h.named settings layout fun _ hm => hm,
    writeQueue_of_ready h.sound h.named layout (by simp [HasNumbers, Writing.start])
      (fun m hm => ⟨hm, List.mem_map_of_mem hm⟩) spoken h.readyOrder]
  rfl

end Pipeline

theorem Reading.Restores.filled {p q : Pipeline} {settings : Settings} {f : String → String}
    (h : Restores p (p.members.map Member.id) settings f p.members q) (hp : p.Sound)
    (named : p.Named) (ren : Renames f p.members) (filled : p.Filled) :
    q.Filled := by
  intro n hn d hd required
  have hframe : n.bare ∈ q.frame := List.mem_map_of_mem hn
  rw [h.frame] at hframe
  obtain ⟨⟨m, i⟩, he, hcopy⟩ := List.mem_map.1 hframe
  have hm : m ∈ p.members := List.fst_mem_of_mem_zipIdx he
  have hconnectors : n.inputs = m.inputs.map (Connector.rename f) := by
    rw [Member.inputs, Member.inputs, Member.connectors, Member.connectors,
      Connector.rename_ofSlots, ren (m, i) he]
    exact (congrArg (fun k : Member => k.connectors .input) hcopy.symm :)
  rw [hconnectors] at hd
  obtain ⟨c, hc, rfl⟩ := List.mem_map.1 hd
  rw [← linksAmong_none, h.places m hm .input c hc, linksAmong_members hp named, linksAmong_none,
    ne_eq, List.map_eq_nil_iff]
  exact filled m hm c hc required

namespace Reader

/-- What is read with the bundled catalogue and written in the same dialect, without a tool, is read
again, and each task has the values that it had, as long as the values that are given in the text
and written are restorable. -/
theorem keeps_values {d : Dialect} (hd : d ∈ Dialect.all) {strict : Bool} {text : String}
    {name : Option String} {p : Pipeline}
    (read : Reader.read ⟨Catalogue.bundled, d.marker, strict⟩ text name = .ok p)
    {settings : Settings} (tool : settings.toolPath = "") (addToolPath : Bool)
    (restorable : ∀ m ∈ p.members, ∀ a ∈ m.arguments, a.given.isSome = true →
      a.isWritten settings = true → a.Restorable settings d) (again : Option String) :
    ∃ written q, p.write settings (Layout.ofDialect d addToolPath) none = .ok written ∧
      written = (through p settings (Layout.ofDialect d addToolPath) (p.members.map Member.id)
        p.members).text (Layout.ofDialect d addToolPath) ∧
      Reader.read ⟨Catalogue.bundled, d.marker, strict⟩ written again = .ok q ∧
      List.Forall₂ (fun m n : Member => n.task = m.task ∧ n.values = m.values)
        p.members q.members := by
  have names := Catalogue.bundled_unindented
  obtain ⟨growing, filled⟩ := filled_of_read names read
  have jobs := fromCommands_of_read read
  rw [Catalogue.orBundled_bundled] at jobs
  have writable : ∀ m ∈ p.members, Catalogue.bundled.Knows settings m.task ∧
      m.toJob.Writable settings d := by
    intro m hm
    obtain ⟨c, hc, serial, t, found, given⟩ := jobs m hm
    have faithful := Catalogue.faithful_of_lookup found
    have knows := Catalogue.bundled_knows found settings
    obtain ⟨proper, htask, gives⟩ := acceptable_of_giveAll
      (Job.proper_ofTask serial faithful.checked faithful.parameters) faithful.plain
      (by simp [Job.ofTask]) hc given
    obtain rfl : m.task = t := htask
    exact ⟨knows, proper, faithful.plain, proper.survives hd faithful gives (restorable m hm),
      knows.word⟩
  have startless : ∀ m ∈ p.members, Text.startsBlank m.task.name = false := by
    intro m hm
    obtain ⟨c, _, _, t, found, given⟩ := jobs m hm
    rw [show m.task = t from (giveAll_eq_ok given).2]
    exact names.of_lookup found
  have nodup : p.members.Nodup := List.Nodup.of_map Member.key growing.sound.keys_nodup
  have ids := ids_nodup growing.sound growing.named (fun _ hm => hm) nodup
  have dashless : addToolPath = true → settings.Dashless := fun _ => by
    rw [Settings.Dashless, tool]
    exact ⟨rfl, trivial⟩
  obtain ⟨q, lenient, restores⟩ := read_writable growing.sound growing.named startless
    (fun _ hm => hm) nodup (fun _ => Iff.rfl)
    (growing.forward.acyclic.mono fun _ hl => (List.mem_filter.1 hl).1) growing.readyOrder hd
    dashless (fun m hm => (writable m hm).1) (fun m hm => (writable m hm).2) again
  have ren := renames_newName ids
  refine ⟨_, q, growing.write_eq (fun m hm => (writable m hm).1.spoken) _, rfl, ?_, ?_⟩
  · cases strict with
    | false => exact lenient
    | true =>
      rcases read_sides names d.marker _ again with same | ⟨_, open_⟩
      · exact same.trans lenient
      · exact absurd (restores.filled growing.sound growing.named ren (filled rfl))
          (open_ q lenient)
  · have mirrors := mirrors_of_restores restores growing.sound growing.named (fun _ hm => hm) ids
      (fun _ => Iff.rfl) ren (fun m hm => (writable m hm).2.proper)
      fun m hm => (writable m hm).2.plain
    exact mirrors.members.imp fun _ _ h => h.2.2

theorem bundled_keeps_values : ∃ p,
    Reader.read ⟨Catalogue.bundled, "\\", true⟩
      "--rx file=\"it's here\" --tf a='b \"c' --wx o" none = .ok p ∧
    ∃ written q, p.write ⟨"", true, true⟩ (Layout.ofDialect Dialect.bash true) none = .ok written ∧
      written = (through p ⟨"", true, true⟩ (Layout.ofDialect Dialect.bash true)
        (p.members.map Member.id) p.members).text (Layout.ofDialect Dialect.bash true) ∧
      Reader.read ⟨Catalogue.bundled, "\\", true⟩ written none = .ok q ∧
      List.Forall₂ (fun m n : Member => n.task = m.task ∧ n.values = m.values)
        p.members q.members := by
  have found : ∃ p, Reader.read ⟨Catalogue.bundled, "\\", true⟩
      "--rx file=\"it's here\" --tf a='b \"c' --wx o" none = .ok p ∧
      ∀ m ∈ p.members, ∀ a ∈ m.arguments, a.given.isSome = true →
        a.isWritten ⟨"", true, true⟩ = true → a.Restorable ⟨"", true, true⟩ Dialect.bash := by
    decide +kernel
  obtain ⟨p, read, restorable⟩ := found
  exact ⟨p, read, keeps_values (by simp [Dialect.all]) read rfl true restorable none⟩

theorem cut_value : ∃ p,
    Reader.read ⟨Catalogue.bundled, Dialect.plain.marker, false⟩
      "--rx file='a \"b' --wx out.osm" none = .ok p ∧
    ∃ written q,
      p.write ⟨"", false, false⟩ (Layout.ofDialect Dialect.plain true) none = .ok written ∧
      Reader.read ⟨Catalogue.bundled, Dialect.plain.marker, false⟩ written none = .ok q ∧
      (p.members.map fun m => m.values) ≠ q.members.map fun m => m.values := by
  have found : ∃ p, Reader.read ⟨Catalogue.bundled, Dialect.plain.marker, false⟩
      "--rx file='a \"b' --wx out.osm" none = .ok p ∧
      ∃ q, Reader.read ⟨Catalogue.bundled, Dialect.plain.marker, false⟩
        ((through p ⟨"", false, false⟩ (Layout.ofDialect Dialect.plain true)
          (p.members.map Member.id) p.members).text (Layout.ofDialect Dialect.plain true)) none =
            .ok q ∧ (p.members.map fun m => m.values) ≠ q.members.map fun m => m.values := by
    decide +kernel
  obtain ⟨p, read, q, again, differ⟩ := found
  have growing := (filled_of_read Catalogue.bundled_unindented read).1
  exact ⟨p, read, _, q, growing.write_eq (fun _ _ => Task.spoken_of_long rfl) _, again, differ⟩

end Reader

end Sluice
