import Mathlib
import Sluice.Exchange
import Sluice.Proofs.Conversion
import Sluice.Proofs.Files
import Sluice.Proofs.Writing.Emission
import Sluice.Proofs.Writing.Endings
import Sluice.Proofs.Writing.Outcome

/-! Pipelines in files. What is imported from the file that a pipeline was exported to is what is
read of the text itself. Only if the text ends with a marker, as a value can, the line end that
follows it in the file takes that marker away. -/

namespace Sluice

open CommandLine Pipeline Writing Reading
open scoped List

theorem Dialect.exists_ofName? {name : String} (h : name ∈ Dialect.names) :
    ∃ d ∈ Dialect.all, Dialect.ofName? name = some d := by
  have found : ∀ name ∈ Dialect.names, (Dialect.ofName? name).isSome = true := by decide +kernel
  obtain ⟨d, hd⟩ := Option.isSome_iff_exists.1 (found name h)
  exact ⟨d, List.mem_of_find?_eq_some hd, hd⟩

theorem Path.dialect_known (p : Path) : p.dialect ∈ Dialect.names := by
  unfold dialect
  dsimp only
  split_ifs <;> simp [Dialect.names, Dialect.all]

namespace Exchange

theorem exists_dialect {name : String} (h : name ∈ Dialect.names) :
    ∃ d ∈ Dialect.all, dialect name = .ok d := by
  obtain ⟨d, hd, found⟩ := Dialect.exists_ofName? h
  exact ⟨d, hd, by rw [dialect, found]; rfl⟩

theorem dialectName_known {given : Option String} (h : ∀ name ∈ given, name ∈ Dialect.names)
    (path : String) : dialectName given path ∈ Dialect.names := by
  unfold dialectName
  split
  · exact Path.dialect_known _
  · exact Path.dialect_known _
  · exact h _ rfl

end Exchange

/-- The value holds no quotes; one that is taken as a whole names no pipe, starts with no dashes and
is no marker. -/
structure Argument.Clear (a : Argument) (d : Dialect) : Prop where
  unquoted : ∀ c ∈ a.value.toList, isQuote c = false
  whole : a.parameter.verbatim = true → Pipeless a.value.toList ∧
    startsDashes a.value.toList = false ∧ a.value ≠ d.marker

theorem Job.Proper.survives_of_clear {j : Job} {settings : Settings} {d : Dialect}
    (hd : d ∈ Dialect.all) (proper : j.Proper) (plain : j.task.Plain)
    (nonblank : ∀ a ∈ j.arguments, Text.holdsBlank a.value = false)
    (clear : ∀ a ∈ j.arguments, a.Clear d) : j.Survives settings d := by
  intro a ha _
  have letters : ∀ c ∈ a.value.toList, Text.isBlank c = false := by
    simpa [Text.holdsBlank] using nonblank a ha
  obtain ⟨unquoted, whole⟩ := clear a ha
  refine ⟨⟨Text.trim_of_nonblank (nonblank a ha), calm_of_nonblank letters,
    fun hv => ⟨(whole hv).1, (whole hv).2.1⟩⟩, ?_⟩
  rcases proper.verbatim_cases plain with keyed | ⟨b, hb, hpos, hv, _⟩
  · exact Argument.restorable_of_word hd (plain.parameters _ (proper.argument ha))
      (proper.checked ha) (keyed a ha) (nonblank a ha) fun c hc =>
        unquoted c (List.mem_of_mem_head? hc)
  · obtain rfl : a = b := by simpa [hb] using ha
    refine ⟨fun part hpart => ?_, by simp [hv], by simp [hv]⟩
    obtain ⟨m, ms, hm, marker⟩ := exists_marker hd
    obtain ⟨rfl, _⟩ := valuePart?_verbatim hpos hv hpart
    refine (normalize_eq_iff hm).2 (unbroken_of_nonblank marker letters ?_)
    rw [← hm]
    exact fun heq => (whole hv).2.2 (String.toList_inj.1 heq)

namespace Pipeline

variable {p : Pipeline} {settings : Settings} {d : Dialect}

theorem read_stored_of_write (hd : d ∈ Dialect.all) (tool : settings.toolPath = "")
    (proper : p.Proper) (closing : ∀ m ∈ p.members, m.task.Closing settings d)
    (nonblank : ∀ m ∈ p.members, ∀ a ∈ m.arguments, Text.holdsBlank a.value = false)
    {addToolPath : Bool} {some? : Option (List Stage)} {text : String}
    (written : p.write settings (Layout.ofDialect d addToolPath) some? = .ok text) :
    ReadsBack d text := by
  obtain ⟨blocks, rfl, stems⟩ := write_stems written
  obtain ⟨m, ms, hm, marker⟩ := exists_marker hd
  have fit : ∀ b ∈ blocks, b.Fit m ms := by
    intro b hb
    rcases stems b hb with hb | ⟨k, hk, stems⟩
    · simp [toolBlocks, tool] at hb
    · exact stems.fit hd hm marker (proper k hk) (closing k hk) (nonblank k hk)
  have lines : ((Layout.ofDialect d addToolPath).separator.intercalate
      (blocks.map Block.render)).toList =
        d.separator.toList.intercalate (blocks.map fun b => b.render.toList) := by
    rw [String.toList_intercalate, List.map_map]
    rfl
  refine read_stored hd hm marker (List.forall_mem_map.2 fun b hb => (fit b hb).single)
    (fun part hpart => ?_) lines
  obtain ⟨b, hb, rfl⟩ := List.mem_map.1 (List.mem_of_getLast? hpart)
  exact (fit b hb).ending

end Pipeline

namespace Exchange

/-- What is imported from the file at a path is what is read of a text, up to a marker at the end of
that. -/
structure Keeps (files : Files) (path : String) (d : Dialect) (text : String) : Prop where
  whole : ¬d.marker.toList <:+ text.toList → ∀ strict,
    importFrom files Catalogue.bundled strict none path =
      lift .read (Reader.read ⟨Catalogue.bundled, d.marker, strict⟩ text none)
  cut : ∀ rest, text = rest ++ d.marker → ∀ strict,
    importFrom files Catalogue.bundled strict none path =
      lift .read (Reader.read ⟨Catalogue.bundled, d.marker, strict⟩ rest none)

/-- The text of a pipeline is exported wherever a file can be written, and is read as a mirror of
the pipeline if the values are clear. -/
structure Exports (settings : Settings) (addToolPath : Bool) (path : String) (p : Pipeline)
    (d : Dialect) (text : String) : Prop where
  written : p.write settings (Layout.ofDialect d addToolPath) none = .ok text
  stored : ∀ files after,
    Files.write files (Path.ofString path).toString (text ++ d.lineEnd) = .ok after →
      exportTo files settings addToolPath none path p = .ok (text, after)
  restored : (∀ m ∈ p.members, ∀ a ∈ m.arguments, a.Clear d) → ∃ order q, order ~ p.members ∧
    Reader.read ⟨Catalogue.bundled, d.marker, false⟩ text none = .ok q ∧
    p.Mirrors order (newName order) q

end Exchange

theorem Reader.read_congr (r : Reader) {text other : String}
    (h : CommandLine.read r.marker text = CommandLine.read r.marker other) (name : Option String) :
    r.read text name = r.read other name := by
  rw [Reader.read, Reader.read, h]

namespace Exchange

@[simp] theorem lift_eq_ok {ε α : Type} {wrap : ε → ExchangeError} {x : Except ε α} {a : α} :
    lift wrap x = .ok a ↔ x = .ok a := by
  cases x <;> simp [lift]

theorem exportTo_eq_ok {files after : Files} {settings : Settings} {addToolPath : Bool}
    {path text : String} {p : Pipeline} {d : Dialect}
    (hd : dialect (dialectName none path) = .ok d)
    (known : settings.toolPath ≠ ConfigLibrary.missingMark) :
    exportTo files settings addToolPath none path p = .ok (text, after) ↔
      p.write settings (Layout.ofDialect d addToolPath) none = .ok text ∧
        files.write (Path.ofString path).toString (text ++ d.lineEnd) = .ok after := by
  simp only [exportTo, render, writeBy_plain known, hd, ok_bind, bind_eq_ok, lift_eq_ok, pure_eq_ok,
    Prod.mk.injEq]
  constructor
  · rintro ⟨_, ⟨_, written, rfl⟩, _, stored, rfl, rfl⟩
    exact ⟨written, stored⟩
  · rintro ⟨written, stored⟩
    exact ⟨_, ⟨text, written, rfl⟩, after, stored, rfl, rfl⟩

theorem importFrom_eq {files after : Files} {path text : String} {d : Dialect}
    (hd : dialect (dialectName none path) = .ok d)
    (stored : files.write (Path.ofString path).toString (text ++ d.lineEnd) = .ok after)
    (catalogue : Catalogue) (strict : Bool) : importFrom after catalogue strict none path =
      lift .read (Reader.read ⟨catalogue, d.marker, strict⟩ (storedText d text) none) := by
  simp only [importFrom, Files.read_write stored, hd]
  rfl

theorem keeps_of_readsBack {files after : Files} {path text : String} {d : Dialect}
    (hd : dialect (dialectName none path) = .ok d)
    (stored : files.write (Path.ofString path).toString (text ++ d.lineEnd) = .ok after)
    (back : ReadsBack d text) : Keeps after path d text := by
  have imported : ∀ {other : String},
      CommandLine.read d.marker (storedText d text) = CommandLine.read d.marker other →
      ∀ strict, importFrom after Catalogue.bundled strict none path =
        lift .read (Reader.read ⟨Catalogue.bundled, d.marker, strict⟩ other none) := by
    intro other same strict
    have reads := Reader.read_congr ⟨Catalogue.bundled, d.marker, strict⟩ same none
    rw [importFrom_eq hd stored, reads]
  exact ⟨fun unmarked => imported (back.whole unmarked), fun rest hrest =>
    imported (back.cut rest hrest)⟩

end Exchange

namespace Pipeline

variable {p : Pipeline} {settings : Settings}

theorem Built.mirrors_of_clear (b : Built Edit.Regular p) {d : Dialect} (hd : d ∈ Dialect.all)
    (found : ∀ m ∈ p.members, ∃ word, Catalogue.bundled.lookup word = some m.task)
    (tool : settings.toolPath = "")
    (nonblank : ∀ m ∈ p.members, ∀ a ∈ m.arguments, Text.holdsBlank a.value = false)
    (clear : ∀ m ∈ p.members, ∀ a ∈ m.arguments, a.Clear d) {order : List Member}
    (perm : order ~ p.members) (ready : ReadyOrder p (p.members.map Member.id) [] order)
    (acyclic : Acyclic (induced p (p.members.map Member.id))) (addToolPath : Bool) :
    ∃ q, Reader.read ⟨Catalogue.bundled, d.marker, false⟩
        ((through p settings (Layout.ofDialect d addToolPath) (p.members.map Member.id) order).text
          (Layout.ofDialect d addToolPath)) none = .ok q ∧ p.Mirrors order (newName order) q := by
  have names : ∀ m ∈ p.members, Text.startsBlank m.task.name = false := fun m hm =>
    (found m hm).elim fun _ h => Catalogue.bundled_unindented.of_lookup h
  have named := b.sound.named names
  have inside : ∀ m ∈ order, m ∈ p.members := fun m hm => perm.mem_iff.1 hm
  have nodup : order.Nodup :=
    perm.nodup_iff.2 (List.Nodup.of_map Member.key b.sound.keys_nodup)
  have all : ∀ id, id ∈ p.members.map Member.id ↔ id ∈ order.map Member.id := fun id =>
    (perm.map _).mem_iff.symm
  have ids := ids_nodup b.sound named inside nodup
  have proper : ∀ m ∈ order, m.toJob.Proper := fun m hm => b.proper m (inside m hm)
  have tasks : ∀ m ∈ order, m.task.Plain ∧ Catalogue.bundled.Knows settings m.task :=
    fun m hm => (found m (inside m hm)).elim fun _ h =>
      ⟨(Catalogue.faithful_of_lookup h).plain, Catalogue.bundled_knows h settings⟩
  have dashless : addToolPath = true → settings.Dashless := fun _ => by
    rw [Settings.Dashless, tool]
    exact ⟨rfl, trivial⟩
  obtain ⟨q, read, restores⟩ := read_writable b.sound named names inside nodup all acyclic ready hd
    dashless (fun m hm => (tasks m hm).2)
    (fun m hm => ⟨proper m hm, (tasks m hm).1, (proper m hm).survives_of_clear hd (tasks m hm).1
      (nonblank m (inside m hm)) (clear m (inside m hm)), (tasks m hm).2.word⟩) none
  exact ⟨q, read, mirrors_of_restores restores b.sound named inside ids all (renames_newName ids)
    proper fun m hm => (tasks m hm).1⟩

def savedEdits : List Edit :=
  [.add (Stage.ofTask 0 Catalogue.Bundled.readXml none) none,
    .add (Stage.ofTask 1 Catalogue.Bundled.writeXml none) none,
    .connect "read-xml_0" "write-xml_1" none none,
    .give 1 0 (some "o\\")]

def saved : Pipeline :=
  savedEdits.foldl Edit.apply (Pipeline.new none)

theorem proper_of_bundled (serial : Nat) {t : Task} (ht : t ∈ Catalogue.Bundled.tasks) :
    (Stage.ofTask serial t none).Proper :=
  Stage.proper_ofTask serial none (Catalogue.Bundled.faithful ht).checked
    (Catalogue.Bundled.faithful ht).parameters

theorem saved_built : Built Edit.Plain saved := by
  refine .edits (.new none) ?_
  simp only [savedEdits, Allows]
  exact ⟨⟨proper_of_bundled 0 (by simp [Catalogue.Bundled.tasks]), by decide +kernel⟩,
    ⟨proper_of_bundled 1 (by simp [Catalogue.Bundled.tasks]), by decide +kernel⟩, trivial, trivial,
    trivial⟩

theorem saved_found {m : Member} (hm : m ∈ saved.members) :
    ∃ word, Catalogue.bundled.lookup word = some m.task := by
  have tasks : (saved.members.map fun m => m.task) =
      [Catalogue.Bundled.readXml, Catalogue.Bundled.writeXml] := rfl
  have hmem : m.task ∈ saved.members.map fun m => m.task := List.mem_map_of_mem hm
  rw [tasks] at hmem
  refine ⟨m.task.name, Catalogue.Bundled.lookup_name ?_⟩
  rcases List.mem_pair.1 hmem with h | h <;> rw [h] <;> simp [Catalogue.Bundled.tasks]

theorem writable_empty (content : String) :
    ∃ after, Files.write [] (Path.ofString "a.sh").toString content = .ok after := by
  have slashless : "a.sh".endsWith "/" = false := by decide +kernel
  have same : (Path.ofString "a.sh").toString = "a.sh" := by cbv
  have located : Files.locate [] "a.sh" = .ok ["a.sh"] := by cbv
  rw [same]
  exact ⟨_, Files.write_eq_ok.2 ⟨slashless, _, located, by decide +kernel, rfl⟩⟩

def loneEdits : List Edit :=
  [.add (Stage.ofTask 0 Catalogue.Bundled.writeXml none) none, .give 0 0 (some "a\\")]

def lone : Pipeline :=
  loneEdits.foldl Edit.apply (Pipeline.new none)

theorem lone_built : Built Edit.Plain lone := by
  refine .edits (.new none) ?_
  simp only [loneEdits, Allows]
  exact ⟨⟨proper_of_bundled 0 (by simp [Catalogue.Bundled.tasks]), by decide +kernel⟩, trivial,
    trivial⟩

theorem lone_written : lone.write ⟨"", false, false⟩ (Layout.ofDialect Dialect.bash false) none =
    .ok "--write-xml file=a\\" := by
  have hp := lone_built.regular.sound
  have named : lone.Named := hp.named (by decide +kernel)
  have spoken : ∀ m ∈ lone.members, m.task.Spoken ⟨"", false, false⟩ := fun _ _ =>
    Task.spoken_of_long rfl
  obtain ⟨order, perm, _, written⟩ := exists_through hp named (Layout.ofDialect Dialect.bash false)
    (fun _ hm => hm) spoken (.of_rank (fun _ => 0) (by decide +kernel))
  obtain ⟨m, hm⟩ : ∃ m, lone.members = [m] := ⟨_, rfl⟩
  rw [hm, List.perm_singleton, ← hm] at perm
  subst perm
  have text : (through lone ⟨"", false, false⟩ (Layout.ofDialect Dialect.bash false)
      (lone.members.map Member.id) lone.members).text (Layout.ofDialect Dialect.bash false) =
        "--write-xml file=a\\" := by decide +kernel
  rw [text] at written
  exact written

/-- What is exported of a built pipeline of bundled tasks, in whose values there are no blanks, is
imported as it is read from the text, up to a marker at the end of that. If the pipeline has no
cycles, and no stage was added twice and no link named twice when links were reordered, there is
such a text. -/
theorem Built.import_of_export (b : Built Edit.Proper p)
    (found : ∀ m ∈ p.members, ∃ word, Catalogue.bundled.lookup word = some m.task)
    (tool : settings.toolPath = "")
    (nonblank : ∀ m ∈ p.members, ∀ a ∈ m.arguments, Text.holdsBlank a.value = false)
    (addToolPath : Bool) (path : String) :
    ∃ d, Exchange.dialect (Exchange.dialectName none path) = .ok d ∧
      (∀ files text after,
        Exchange.exportTo files settings addToolPath none path p = .ok (text, after) →
          Exchange.Keeps after path d text) ∧
      (Built Edit.Regular p → Acyclic p.links →
        ∃ text, Exchange.Exports settings addToolPath path p d text) := by
  have known : Exchange.dialectName none path ∈ Dialect.names :=
    Exchange.dialectName_known (by simp) path
  obtain ⟨d, hd, hdialect⟩ := Exchange.exists_dialect known
  have path_known : settings.toolPath ≠ ConfigLibrary.missingMark := by
    rw [tool]
    decide
  refine ⟨d, hdialect, fun files text after exported => ?_, fun regular acyclic => ?_⟩
  · obtain ⟨written, stored⟩ := (Exchange.exportTo_eq_ok hdialect path_known).1 exported
    have closing : ∀ m ∈ p.members, m.task.Closing settings d := fun m hm =>
      (found m hm).elim fun _ h => Catalogue.bundled_closing h settings hd
    have back := read_stored_of_write hd tool (.of_built b) closing nonblank written
    exact Exchange.keeps_of_readsBack hdialect stored back
  · have names : ∀ m ∈ p.members, Text.startsBlank m.task.name = false := fun m hm =>
      (found m hm).elim fun _ h => Catalogue.bundled_unindented.of_lookup h
    have named := regular.sound.named names
    have acyclic' : Acyclic (induced p (p.members.map Member.id)) :=
      (regular.sound.induced_members named).symm ▸ acyclic
    obtain ⟨order, perm, ready, written⟩ := exists_through regular.sound named
      (Layout.ofDialect d addToolPath) (fun _ hm => hm)
      (fun m hm => (found m hm).elim fun _ h => (Catalogue.bundled_knows h settings).spoken)
      acyclic'
    refine ⟨_, written, fun files after stored => ?_, fun clear => ?_⟩
    · exact (Exchange.exportTo_eq_ok hdialect path_known).2 ⟨written, stored⟩
    · obtain ⟨q, read, mirrors⟩ := regular.mirrors_of_clear hd found tool nonblank clear perm ready
        acyclic' addToolPath
      exact ⟨order, q, perm, read, mirrors⟩

theorem saved_imported : ∃ d text after,
    Exchange.exportTo [] ⟨"", false, false⟩ true none "a.sh" saved = .ok (text, after) ∧
      Exchange.Keeps after "a.sh" d text := by
  have tool : (Settings.mk "" false false).toolPath = "" := rfl
  obtain ⟨d, _, keeps, exports⟩ := Built.import_of_export
    (saved_built.regular.mono fun _ _ => Edit.Regular.proper) (fun _ hm => saved_found hm) tool
    (by decide +kernel) true "a.sh"
  obtain ⟨text, exported⟩ := exports saved_built.regular
    (.of_rank (fun key => if key = "read-xml_0" then 0 else 1) (by decide +kernel))
  obtain ⟨after, stored⟩ := writable_empty (text ++ d.lineEnd)
  exact ⟨d, text, after, exported.stored _ _ stored, keeps _ _ _ (exported.stored _ _ stored)⟩

theorem marker_lost_on_import : ∃ text after q r,
    Exchange.exportTo [] ⟨"", false, false⟩ false none "a.sh" lone = .ok (text, after) ∧
    Exchange.importFrom after Catalogue.bundled false none "a.sh" = .ok q ∧
    Reader.read ⟨Catalogue.bundled, Dialect.bash.marker, false⟩ text none = .ok r ∧
    (q.members.map fun m => m.values) ≠ r.members.map fun m => m.values := by
  have hd : Exchange.dialect (Exchange.dialectName none "a.sh") = .ok Dialect.bash := by cbv
  obtain ⟨after, stored⟩ := writable_empty ("--write-xml file=a\\" ++ Dialect.bash.lineEnd)
  obtain ⟨q, hq, r, hr, differ⟩ : ∃ q, Reader.read ⟨Catalogue.bundled, Dialect.bash.marker, false⟩
        (storedText Dialect.bash "--write-xml file=a\\") none = .ok q ∧
      ∃ r, Reader.read ⟨Catalogue.bundled, Dialect.bash.marker, false⟩ "--write-xml file=a\\" none =
        .ok r ∧ (q.members.map fun m => m.values) ≠ r.members.map fun m => m.values := by
    decide +kernel
  have exported := (Exchange.exportTo_eq_ok hd (by decide)).2 ⟨lone_written, stored⟩
  refine ⟨_, after, q, r, exported, ?_, hr, differ⟩
  rw [Exchange.importFrom_eq hd stored, hq]
  rfl

end Pipeline

end Sluice
