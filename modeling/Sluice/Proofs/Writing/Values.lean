import Sluice.Proofs.Pipeline.Edit
import Sluice.Proofs.Writing.Lines

/-! Values of jobs, written and read back. What a command line can carry depends on the dialect;
a job whose values are of that kind gets them back from the parts that are written for it. -/

namespace Sluice

open CommandLine

structure Dialect.Carries (d : Dialect) (value : String) : Prop where
  trimmed : Text.trim value = value
  unquoted : ∀ c ∈ value.toList, isQuote c = false
  calm : Calm value.toList
  unmarked : Unmarked d.marker.toList value.toList

structure Parameter.Plain (a : Parameter) : Prop where
  word : ∀ c ∈ a.name.toList, isKeyChar c = true ∧ isQuote c = false
  dashless : startsDashes a.name.toList = false
  no_pipe : readPipeKey a.name = .ok none

/-- What is written for the task can be told apart: its parameters are plain, and a parameter that
takes the whole text is the only one. The slots are so few that their numbers can be read, as those
of every list that fits into a memory are. -/
structure Task.Plain (t : Task) : Prop where
  parameters : ∀ a ∈ t.parameters, a.Plain
  verbatim : (∀ a ∈ t.parameters, a.verbatim = false) ∨
    ∃ a, t.parameters = [a] ∧ a.positional = true ∧ a.verbatim = true ∧ a.default = none
  slots : ∀ slots ∈ [t.inputs, t.outputs], ∀ i < slots.length, Text.Readable i

def Argument.isWritten (settings : Settings) (a : Argument) : Bool :=
  (!a.isDefault || settings.exportDefaults) &&
    (a.value != "" || !a.isDefault && !a.parameter.verbatim)

/-- The values that are written for the job can be written in the dialect; a text that is taken as a
whole mentions no pipe and does not start with dashes. -/
def Job.Carried (j : Job) (settings : Settings) (d : Dialect) : Prop :=
  ∀ a ∈ j.arguments, a.isWritten settings = true → d.Carries a.value ∧
    (a.parameter.verbatim = true → Pipeless a.value.toList ∧ startsDashes a.value.toList = false)

structure Argument.Tame (a : Argument) : Prop where
  trimmed : Text.trim a.value = a.value
  calm : Calm a.value.toList
  whole : a.parameter.verbatim = true →
    Pipeless a.value.toList ∧ startsDashes a.value.toList = false

/-- What is written for the argument gives its value back: no marker in it breaks a line, and the
value does not hold the quotes that go around it, or start with one where none go around it. In a
text that is taken as a whole any quotes may stand. -/
structure Argument.Restorable (settings : Settings) (d : Dialect) (a : Argument) : Prop where
  unbroken : ∀ part ∈ Writing.valuePart? settings (Layout.ofDialect d false) a,
    normalize d.marker part = part
  quoted : a.parameter.verbatim = false → Text.holdsBlank a.value = true → '"' ∉ a.value.toList
  bare : a.parameter.verbatim = false → Text.holdsBlank a.value = false →
    ∀ c ∈ a.value.toList.head?, isQuote c = false

def Job.Survives (j : Job) (settings : Settings) (d : Dialect) : Prop :=
  ∀ a ∈ j.arguments, a.isWritten settings = true → a.Tame ∧ a.Restorable settings d

def Argument.readBack (settings : Settings) (a : Argument) : Argument :=
  { a with given := if a.isWritten settings then some a.value else none }

namespace Writing

variable {settings : Settings} {d : Dialect} {addToolPath : Bool} {a : Argument} {m : Char}
  {ms : List Char} {part : String}

theorem isSome_valuePart? (settings : Settings) (layout : Layout) (a : Argument) :
    (valuePart? settings layout a).isSome = a.isWritten settings := by
  unfold valuePart? Argument.isWritten
  cases hd : a.isDefault <;> cases he : settings.exportDefaults <;>
    by_cases hv : a.value = "" <;> cases hb : a.parameter.verbatim <;>
    cases hp : a.parameter.positional <;> simp [hv]

theorem quote_eq (hd : d ∈ Dialect.all) : d.quote = "\"" := by
  simp only [Dialect.all, List.mem_cons, List.not_mem_nil, or_false] at hd
  rcases hd with rfl | rfl | rfl <;> rfl

theorem isKey_name (h : a.parameter.Plain) (hc : a.parameter.checked = .ok a.parameter) :
    IsKey a.name.toList where
  ne_nil := by
    intro hnil
    have : Text.isVoid a.parameter.name = true := by
      rw [Argument.name] at hnil
      simp [Text.isVoid, hnil]
    simp [Parameter.checked, this] at hc
  plain := fun c hcm => (h.word c hcm).1
  dashless := h.dashless

theorem unbroken_value (hm : d.marker.toList = m :: ms) {value : String} (h : d.Carries value) :
    Unbroken m ms true value.toList := by
  have := h.unmarked
  rw [hm] at this
  exact this.unbroken

theorem trimmed_value {value : String} (h : Text.trim value = value) :
    Text.Chars.Trimmed value.toList := by
  have := congrArg String.toList h
  rw [Text.trim, String.toList_ofList] at this
  rw [← this]
  exact Text.Chars.trimmed_trim _

theorem token_value (key : String) {value : String} (h : Text.trim value = value) :
    token (some key.toList) value.toList = ⟨some key, value⟩ := by
  simp [token, Text.Chars.trim_eq_self (trimmed_value h)]

theorem not_mem_quote {cs : List Char} (h : ∀ c ∈ cs, isQuote c = false) : '"' ∉ cs := by
  intro hc
  exact absurd (h '"' hc) (by decide)

theorem valuePart?_verbatim {layout : Layout} (hpos : a.parameter.positional = true)
    (hv : a.parameter.verbatim = true) (h : valuePart? settings layout a = some part) :
    part = a.value ∧ a.value ≠ "" := by
  unfold valuePart? at h
  split at h
  · cases h
  · split at h
    · simp [hv] at h
    · rename_i hne
      rw [hv, hpos, Bool.and_self, if_pos rfl, Option.some.injEq] at h
      exact ⟨h.symm, hne⟩

theorem valuePart?_keyed (hd : d ∈ Dialect.all) (hv : a.parameter.verbatim = false)
    (h : valuePart? settings (Layout.ofDialect d addToolPath) a = some part) :
    (a.value = "" ∨ Text.holdsBlank a.value = true) ∧
        part.toList = a.name.toList ++ '=' :: ('"' :: a.value.toList ++ ['"']) ∨
      a.value ≠ "" ∧ Text.holdsBlank a.value = false ∧
        part.toList = a.name.toList ++ '=' :: a.value.toList := by
  unfold valuePart? at h
  split at h
  · cases h
  · split at h
    · rename_i hempty
      split at h
      · rw [Option.some.injEq] at h
        refine .inl ⟨.inl hempty, ?_⟩
        simp [← h, hempty, Layout.ofDialect, quote_eq hd]
      · cases h
    · rename_i hne
      rw [hv, Bool.false_and, if_neg (by simp), Option.some.injEq] at h
      subst h
      rw [Layout.quoteValue]
      cases hb : Text.holdsBlank a.value with
      | true => exact .inl ⟨.inr rfl, by simp [Layout.ofDialect, quote_eq hd]⟩
      | false => exact .inr ⟨hne, rfl, by simp⟩

theorem normalize_keyed (hd : d ∈ Dialect.all) (hm : d.marker.toList = m :: ms)
    (marker : IsMarker m ms) (hp : a.parameter.Plain)
    (hc : a.parameter.checked = .ok a.parameter) (hv : a.parameter.verbatim = false)
    (hvalue : Unbroken m ms false a.value.toList)
    (h : valuePart? settings (Layout.ofDialect d addToolPath) a = some part) :
    normalize d.marker part = part := by
  have hkey := isKey_name hp hc
  rw [normalize_eq_iff hm]
  rcases valuePart?_keyed hd hv h with ⟨_, hpart⟩ | ⟨_, _, hpart⟩
  · rw [hpart]
    exact hkey.unbroken_quoted marker hvalue
  · rw [hpart]
    exact hkey.unbroken marker hvalue

theorem part_keyed (hd : d ∈ Dialect.all) (hm : d.marker.toList = m :: ms)
    (marker : IsMarker m ms) (hp : a.parameter.Plain)
    (hc : a.parameter.checked = .ok a.parameter) (hv : a.parameter.verbatim = false)
    (tame : a.Tame) (restorable : a.Restorable settings d)
    (h : valuePart? settings (Layout.ofDialect d addToolPath) a = some part) :
    Part m ms part.toList [⟨some a.name, a.value⟩] := by
  have hkey := isKey_name hp hc
  have hwhole := (normalize_eq_iff hm).1 (restorable.unbroken part h)
  rw [← token_value a.name tame.trimmed]
  rcases valuePart?_keyed hd hv h with ⟨hquote, hpart⟩ | ⟨hne, hb, hpart⟩
  · rw [hpart] at hwhole ⊢
    refine part_quoted hkey ?_ tame.calm hwhole
    rcases hquote with hempty | hb
    · simp [hempty]
    · exact restorable.quoted hv hb
  · rw [hpart]
    have nonblank : ∀ c ∈ a.value.toList, Text.isBlank c = false := by
      simpa [Text.holdsBlank] using hb
    exact part_plain marker hkey (by simpa using hne) nonblank (restorable.bare hv hb)

theorem piece_verbatim (hm : d.marker.toList = m :: ms) (hpos : a.parameter.positional = true)
    (hv : a.parameter.verbatim = true) (tame : a.Tame) (restorable : a.Restorable settings d)
    (h : valuePart? settings (Layout.ofDialect d addToolPath) a = some part) :
    Piece m ms part.toList ∧
      ∀ t ∈ scan part.toList, ∀ k, t.key = some k → readPipeKey k = .ok none := by
  have hwhole := (normalize_eq_iff hm).1 (restorable.unbroken part h)
  obtain ⟨rfl, hne⟩ := valuePart?_verbatim hpos hv h
  obtain ⟨hpipe, hdash⟩ := tame.whole hv
  refine ⟨⟨by simpa using hne, trimmed_value tame.trimmed, hdash, tame.calm, hwhole⟩, ?_⟩
  intro t ht k hk
  obtain ⟨x, y, hxy⟩ := (within_of_scan ht).key k hk
  exact readPipeKey_of_slotDigits? (Pipeless.slotDigits? (hxy ▸ hpipe))

theorem exists_parts_of_arguments (settings : Settings) (addToolPath : Bool)
    (hd : d ∈ Dialect.all) (hm : d.marker.toList = m :: ms)
    (marker : IsMarker m ms) {as : List Argument}
    (h : ∀ a ∈ as, a.parameter.Plain ∧ a.parameter.checked = .ok a.parameter ∧
      a.parameter.verbatim = false ∧
      (a.isWritten settings = true → a.Tame ∧ a.Restorable settings d)) :
    ∃ parts : List (String × List Token),
      parts.map Prod.fst = as.filterMap (valuePart? settings (Layout.ofDialect d addToolPath)) ∧
      (∀ e ∈ parts, Part m ms e.1.toList e.2) ∧ parts.flatMap Prod.snd =
        (as.filter (Argument.isWritten settings)).map fun a => ⟨some a.name, a.value⟩ := by
  induction as with
  | nil => exact ⟨[], rfl, by simp, by simp⟩
  | cons a r ih =>
    obtain ⟨parts, hparts, hpart, htokens⟩ := ih fun b hb => h b (by simp [hb])
    have hw := isSome_valuePart? settings (Layout.ofDialect d addToolPath) a
    cases hp : valuePart? settings (Layout.ofDialect d addToolPath) a with
    | none =>
      rw [hp, Option.isSome_none] at hw
      refine ⟨parts, by simp [hp, hparts], hpart, ?_⟩
      rw [List.filter_cons_of_neg (by simp [← hw]), htokens]
    | some part =>
      rw [hp, Option.isSome_some] at hw
      obtain ⟨plain, checked, hv, hsurvives⟩ := h a (by simp)
      obtain ⟨tame, restorable⟩ := hsurvives hw.symm
      have first := part_keyed hd hm marker plain checked hv tame restorable hp
      refine ⟨(part, [⟨some a.name, a.value⟩]) :: parts, by simp [hp, hparts],
        List.forall_mem_cons.2 ⟨first, hpart⟩, ?_⟩
      rw [List.filter_cons_of_pos hw.symm, List.map_cons, List.flatMap_cons, htokens]
      rfl

end Writing

namespace Job

variable {j : Job}

theorem Proper.argument (h : j.Proper) {a : Argument} (ha : a ∈ j.arguments) :
    a.parameter ∈ j.task.parameters := by
  rw [← h.arguments]
  exact List.mem_map_of_mem ha

theorem Proper.checked (h : j.Proper) {a : Argument} (ha : a ∈ j.arguments) :
    a.parameter.checked = .ok a.parameter :=
  h.parameters _ (h.argument ha)

theorem Proper.verbatim_cases (h : j.Proper) (plain : j.task.Plain) :
    (∀ a ∈ j.arguments, a.parameter.verbatim = false) ∨
      ∃ a, j.arguments = [a] ∧ a.parameter.positional = true ∧ a.parameter.verbatim = true ∧
        a.parameter.default = none := by
  refine plain.verbatim.imp (fun hnone a ha => hnone _ (h.argument ha)) ?_
  rintro ⟨b, hb, hpos, hv, hdefault⟩
  have harguments := h.arguments
  rw [hb, List.map_eq_singleton_iff] at harguments
  obtain ⟨a, ha, rfl⟩ := harguments
  exact ⟨a, ha, hpos, hv, hdefault⟩

theorem Carried.survives {settings : Settings} {d : Dialect} (hd : d ∈ Dialect.all) (h : j.Proper)
    (plain : j.task.Plain) (carried : j.Carried settings d) : j.Survives settings d := by
  intro a ha hw
  obtain ⟨carries, whole⟩ := carried a ha hw
  refine ⟨⟨carries.trimmed, carries.calm, whole⟩, fun part hpart => ?_,
    fun _ _ => Writing.not_mem_quote carries.unquoted,
    fun _ _ c hc => carries.unquoted c (List.mem_of_mem_head? hc)⟩
  obtain ⟨m, ms, hm, marker⟩ := exists_marker hd
  have hvalue := Writing.unbroken_value hm carries
  rcases h.verbatim_cases plain with hnone | ⟨b, hb, hpos, hv, _⟩
  · exact Writing.normalize_keyed hd hm marker (plain.parameters _ (h.argument ha)) (h.checked ha)
      (hnone a ha) (hvalue.inner (marker.blank m (by simp))) hpart
  · obtain rfl : a = b := by simpa [hb] using ha
    obtain ⟨rfl, _⟩ := Writing.valuePart?_verbatim hpos hv hpart
    exact (normalize_eq_iff hm).2 hvalue

theorem exists_parts {settings : Settings} {d : Dialect} (addToolPath : Bool) {m : Char}
    {ms : List Char} (hd : d ∈ Dialect.all) (hm : d.marker.toList = m :: ms)
    (marker : IsMarker m ms) (h : j.Proper) (plain : j.task.Plain)
    (survives : j.Survives settings d) :
    ∃ parts : List (String × List Token),
      parts.map Prod.fst = Writing.valueParts settings (Layout.ofDialect d addToolPath) j ∧
      Body m ms parts ∧
      (∀ t ∈ parts.flatMap Prod.snd, ∀ k, t.key = some k → readPipeKey k = .ok none) ∧
      ((∀ a ∈ j.arguments, a.parameter.verbatim = false) → parts.flatMap Prod.snd =
        (j.arguments.filter (Argument.isWritten settings)).map
          fun a => ⟨some a.name, a.value⟩) := by
  rcases h.verbatim_cases plain with hnone | ⟨a, hone, hpos, hv, _⟩
  · obtain ⟨parts, hparts, hpart, htokens⟩ := Writing.exists_parts_of_arguments
      settings addToolPath hd hm marker fun a ha =>
        ⟨plain.parameters _ (h.argument ha), h.checked ha, hnone a ha, survives a ha⟩
    refine ⟨parts, hparts, .of_parts marker hpart, fun t ht k hk => ?_, fun _ => htokens⟩
    rw [htokens] at ht
    obtain ⟨a, ha, rfl⟩ := List.mem_map.1 ht
    obtain rfl := Option.some.inj hk
    exact (plain.parameters _ (h.argument (List.mem_filter.1 ha).1)).no_pipe
  · have hall : ¬∀ a ∈ j.arguments, a.parameter.verbatim = false := by simp [hone, hv]
    rw [Writing.valueParts, hone]
    have hw := Writing.isSome_valuePart? settings (Layout.ofDialect d addToolPath) a
    cases hp : Writing.valuePart? settings (Layout.ofDialect d addToolPath) a with
    | none =>
      exact ⟨[], by simp [hp], .of_parts marker (by simp), by simp, fun h => absurd h (hone ▸ hall)⟩
    | some part =>
      rw [hp, Option.isSome_some] at hw
      obtain ⟨tame, restorable⟩ := survives a (by simp [hone]) hw.symm
      obtain ⟨piece, hkeys⟩ := Writing.piece_verbatim hm hpos hv tame restorable hp
      refine ⟨[(part, scan part.toList)], by simp [hp], ⟨fun _ => ?_, ?_⟩, ?_,
        fun h => absurd h (hone ▸ hall)⟩
      · simpa [joined] using piece
      · simp [joined]
      · simpa using hkeys

end Job

end Sluice
