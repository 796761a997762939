import Sluice.Proofs.CommandLine.Sections
import Sluice.Proofs.Text.LowerCase
import Sluice.Proofs.Writing.Parts
import Sluice.Proofs.Writing.Word

/-! Lines of a command line: a task word with parts after it. A command line of such lines is read
as one command for each line, whatever stands before the first of them. -/

namespace Sluice.CommandLine

variable {m : Char} {ms : List Char}

def commandOf (word text : String) (ts : List Token) : Command :=
  { name := Text.lower word
    text := text
    parameters := ts.filter Command.isParameter
    inPipes := ts.filterMap (Command.pipe? .input)
    outPipes := ts.filterMap (Command.pipe? .output) }

def joined (parts : List (String × List Token)) : String :=
  " ".intercalate (parts.map Prod.fst)

structure Body (m : Char) (ms : List Char) (parts : List (String × List Token)) : Prop where
  piece : parts ≠ [] → Piece m ms (joined parts).toList
  scan_eq : scan (joined parts).toList = parts.flatMap Prod.snd

theorem part_joined (marker : IsMarker m ms) {parts : List (String × List Token)}
    (hne : parts ≠ []) (h : ∀ e ∈ parts, Part m ms e.1.toList e.2) :
    Part m ms (joined parts).toList (parts.flatMap Prod.snd) := by
  have each : ∀ e ∈ parts.map fun e => (e.1.toList, e.2), Part m ms e.1 e.2 :=
    List.forall_mem_map.2 h
  have := part_intercalate marker (by simpa) each
  rw [List.flatMap_map] at this
  simpa [joined, Function.comp_def] using this

theorem Body.of_parts (marker : IsMarker m ms) {parts : List (String × List Token)}
    (h : ∀ e ∈ parts, Part m ms e.1.toList e.2) : Body m ms parts := by
  by_cases hne : parts = []
  · subst hne
    exact ⟨fun hne => absurd rfl hne, by simp [joined, scan]⟩
  · have part := part_joined marker hne h
    exact ⟨fun _ => part.toPiece, part.scans.scan_eq⟩

theorem toList_joined_append {parts more : List (String × List Token)} (hp : parts ≠ [])
    (hm : more ≠ []) :
    (joined (parts ++ more)).toList = (joined parts).toList ++ ' ' :: (joined more).toList := by
  induction parts with
  | nil => exact absurd rfl hp
  | cons e r ih =>
    cases r with
    | nil =>
      have hm : more.map Prod.fst ≠ [] := by simpa using hm
      simp only [joined, List.singleton_append, List.map_cons, List.map_nil,
        String.intercalate_singleton, String.intercalate_cons_of_ne_nil hm, String.toList_append]
      simp
    | cons f s =>
      have := ih (by simp)
      simp only [joined, List.cons_append, List.map_cons, String.intercalate_cons_cons,
        String.toList_append] at this ⊢
      rw [this]
      simp

theorem quoteless_joined {parts : List (String × List Token)}
    (h : ∀ e ∈ parts, Quoteless e.1.toList) : Quoteless (joined parts).toList := by
  induction parts with
  | nil => simp [joined, Quoteless]
  | cons e r ih =>
    obtain ⟨he, hr⟩ := List.forall_mem_cons.1 h
    cases r with
    | nil => simpa [joined] using he
    | cons f s =>
      intro c hc
      have hc : c ∈ e.1.toList ∨ c = ' ' ∨ c ∈ (joined (f :: s)).toList := by
        simpa [joined] using hc
      rcases hc with hc | rfl | hc
      · exact he c hc
      · decide
      · exact ih hr c hc

theorem Body.append (marker : IsMarker m ms) {parts more : List (String × List Token)}
    (h : Body m ms parts) (h' : ∀ e ∈ more, Part m ms e.1.toList e.2)
    (quoteless : ∀ e ∈ more, Quoteless e.1.toList) : Body m ms (parts ++ more) := by
  by_cases hp : parts = []
  · subst hp
    exact .of_parts marker h'
  · by_cases hm : more = []
    · subst hm
      rwa [List.append_nil]
    · have part := part_joined marker hm h'
      have hspace : Text.isBlank ' ' = true := by decide
      have quoteless : Quoteless (' ' :: (joined more).toList) :=
        List.forall_mem_cons.2 ⟨by decide, quoteless_joined quoteless⟩
      refine ⟨fun _ => ?_, ?_⟩
      · rw [toList_joined_append hp hm]
        exact (h.piece hp).append marker part.toPiece
      · rw [toList_joined_append hp hm, scan_append (ends_cons hspace _) quoteless,
          scan_blank hspace, h.scan_eq, part.scans.scan_eq, List.flatMap_append]

structure Line where
  word : String
  parts : List (String × List Token)

namespace Line

def tokens (l : Line) : List Token :=
  l.parts.flatMap Prod.snd

def body (l : Line) : String :=
  joined l.parts

def render (l : Line) : String :=
  " ".intercalate (("--" ++ l.word) :: l.parts.map Prod.fst)

def command (l : Line) : Command :=
  commandOf l.word l.body l.tokens

structure Legible (m : Char) (ms : List Char) (l : Line) : Prop where
  word_ne : l.word ≠ ""
  word : Text.holdsBlank l.word = false
  body : Body m ms l.parts
  short : ∀ t ∈ l.tokens, t.key.bind overlongSlot? = none

namespace Legible

variable {l : Line}

theorem nonblank_word (h : l.Legible m ms) : ∀ c ∈ l.word.toList, Text.isBlank c = false := by
  simpa [Text.holdsBlank] using h.word

theorem body_cases (h : l.Legible m ms) :
    l.parts = [] ∧ l.body.toList = [] ∨ l.parts ≠ [] ∧ Piece m ms l.body.toList := by
  by_cases hp : l.parts = []
  · exact .inl ⟨hp, by simp [Line.body, joined, hp]⟩
  · exact .inr ⟨hp, h.body.piece hp⟩

theorem isSection (h : l.Legible m ms) : IsSection l.word.toList l.body.toList := by
  have hne : l.word.toList ≠ [] := by simpa using h.word_ne
  rcases h.body_cases with ⟨_, hb⟩ | ⟨_, hb⟩
  · rw [hb]
    exact ⟨hne, h.nonblank_word, ⟨by simp, by simp⟩, trivial, rfl⟩
  · exact ⟨hne, h.nonblank_word, hb.trimmed, hb.calm, hb.dashless⟩

theorem scan_body (h : l.Legible m ms) : scan l.body.toList = l.tokens :=
  h.body.scan_eq

theorem spells (h : l.Legible m ms) :
    Spells (l.word.toList, l.body.toList) l.render.toList := by
  rcases h.body_cases with ⟨hp, hb⟩ | ⟨hp, _⟩
  · have hrender : l.render.toList = '-' :: '-' :: l.word.toList := by simp [render, hp]
    rw [hb, hrender]
    exact .bare _
  · have hne : l.parts.map Prod.fst ≠ [] := by simpa using hp
    have hrender : l.render.toList = '-' :: '-' :: l.word.toList ++ ' ' :: l.body.toList := by
      rw [render, String.intercalate_cons_of_ne_nil hne, ← joined, ← Line.body]
      simp
    rw [hrender]
    exact .text _ _

theorem unmarked (marker : IsMarker m ms) (h : l.Legible m ms) :
    Unmarked (m :: ms) l.body.toList := by
  rw [unmarked_iff_unbroken (marker.blank m List.mem_cons_self)]
  rcases h.body_cases with ⟨_, hb⟩ | ⟨_, hb⟩
  · rw [hb]
    exact unbreak_nil
  · exact hb.unbroken

theorem ofParts_eq (h : l.Legible m ms) :
    Command.ofParts l.word.toList l.body.toList = l.command := by
  simp only [Command.ofParts, Text.Chars.trim_eq_self h.isSection.trimmed, h.scan_body,
    String.ofList_toList]
  rfl

end Legible

end Line

theorem read_lines {d : Dialect} (hd : d ∈ Dialect.all) (lead : List String)
    (hone : lead.length ≤ 1)
    (hlead : ∀ s ∈ lead, Calm s.toList ∧ startsDashes s.toList = false) {lines : List Line}
    (hlines : ∀ m ms, d.marker.toList = m :: ms → ∀ l ∈ lines, l.Legible m ms) :
    CommandLine.read d.marker (d.separator.intercalate (lead ++ lines.map Line.render)) =
      .ok (lines.map Line.command) := by
  obtain ⟨m, ms, hm, marker⟩ := exists_marker hd
  have legible := hlines m ms hm
  have written : List.Forall₂ Spells (lines.map fun l => (l.word.toList, l.body.toList))
      (lines.map fun l => l.render.toList) := by
    rw [List.forall₂_map_left_iff, List.forall₂_map_right_iff, List.forall₂_same]
    exact fun l hl => (legible l hl).spells
  have joined : Joined (Separates d) (lead.map String.toList ++ lines.map fun l => l.render.toList)
      (d.separator.intercalate (lead ++ lines.map Line.render)).toList := by
    have := joined_intercalate (@Separates.separator d)
      (lead.map String.toList ++ lines.map fun l => l.render.toList)
    simpa [Function.comp_def] using this
  have found := sections_joined hd (by simpa) (by simpa using hlead) written
    (List.forall_mem_map.2 fun l hl =>
      ⟨(legible l hl).isSection, hm ▸ (legible l hl).unmarked marker⟩) joined
  have short : (lines.map fun l => (l.word.toList, l.body.toList)).findSome?
      (fun e => overlongIn? e.2) = none := by
    rw [List.findSome?_eq_none_iff]
    refine List.forall_mem_map.2 fun l hl => ?_
    rw [overlongIn?, (legible l hl).scan_body, List.findSome?_eq_none_iff]
    exact (legible l hl).short
  have commands_eq : (lines.map fun l => (l.word.toList, l.body.toList)).map
      (fun e => Command.ofParts e.1 e.2) = lines.map Line.command := by
    rw [List.map_map]
    exact List.map_congr_left fun l hl => (legible l hl).ofParts_eq
  rw [read_of_sections found, short, commands_eq]

end Sluice.CommandLine
