import Sluice.Files
import Sluice.Proofs.Writing.Lines

/-! Command lines in files. A file holds a command line and a line end after it, which is one more
blank to the reader. Only where the last value ends with a marker the line end turns that marker
into one that breaks the line, and the file is read as the command line without it. -/

namespace Sluice.CommandLine

variable {m c : Char} {ms cs r rest key value : List Char} {w : Bool}

structure Closed (m : Char) (ms cs : List Char) : Prop where
  solid : ∀ c ∈ cs.getLast?, Text.isBlank c = false
  unmarked : ¬m :: ms <:+ cs

theorem closed_nil : Closed m ms [] :=
  ⟨by simp, by simp⟩

theorem Closed.of_suffix (h : Closed m ms cs) (suffix : r <:+ cs) : Closed m ms r := by
  refine ⟨fun c hc => h.solid c ?_, fun hr => h.unmarked (hr.trans suffix)⟩
  obtain ⟨a, rfl⟩ := suffix
  exact List.mem_getLast?_append_of_mem_getLast? hc

theorem Closed.append (marker : IsMarker m ms) {lead : List Char}
    (hlead : ∀ c ∈ lead.getLast?, Text.isBlank c = true) (hne : cs ≠ []) (h : Closed m ms cs) :
    Closed m ms (lead ++ cs) := by
  refine ⟨fun c hc => h.solid c ?_, fun hsuffix => ?_⟩
  · rwa [List.getLast?_append_of_ne_nil lead hne] at hc
  rcases List.suffix_or_suffix_of_suffix hsuffix (List.suffix_append lead cs) with inside | around
  · exact h.unmarked inside
  · -- the marker would reach over the blank
    obtain ⟨u, hu⟩ := hsuffix
    obtain ⟨t, ht⟩ := around
    have heq : u ++ t = lead := by
      rw [← ht, ← List.append_assoc] at hu
      exact List.append_cancel_right hu
    cases hlast : t.getLast? with
    | none =>
      rw [List.getLast?_eq_none_iff.1 hlast, List.nil_append] at ht
      exact h.unmarked (ht ▸ List.suffix_refl _)
    | some c =>
      have blank := hlead c (heq ▸ List.mem_getLast?_append_of_mem_getLast? hlast)
      exact marker.not_mem blank (ht ▸ List.mem_append_left _ (List.mem_of_getLast? hlast))

theorem afterLineEnd?_newline (hne : cs ≠ []) (solid : ∀ c ∈ cs.getLast?, Text.isBlank c = false) :
    afterLineEnd? (cs ++ ['\n']) = (afterLineEnd? cs).map (· ++ ['\n']) := by
  induction cs with
  | nil => exact absurd rfl hne
  | cons d ds ih =>
    have more : Text.isBlank d = true → ds ≠ [] := by
      rintro hd rfl
      have := solid d rfl
      rw [hd] at this
      cases this
    have later : ds ≠ [] → ∀ c ∈ ds.getLast?, Text.isBlank c = false := fun hds c hc =>
      solid c (by rwa [List.getLast?_cons_of_ne_nil hds])
    by_cases hd : d = ' ' ∨ d = '\t'
    · have hds : ds ≠ [] := more (by rcases hd with rfl | rfl <;> decide)
      simpa [afterLineEnd?, hd] using ih hds (later hds)
    · have keep : ∀ x : List Char, (d :: x).dropWhile (fun c => c = ' ' ∨ c = '\t') = d :: x := by
        intro x
        simp [hd]
      simp only [afterLineEnd?, List.cons_append, keep]
      by_cases hn : d = '\n'
      · subst hn
        rfl
      · by_cases hr : d = '\r'
        · subst hr
          obtain ⟨e, es, rfl⟩ := List.exists_cons_of_ne_nil (more (by decide))
          by_cases he : e = '\n' <;> simp [he]
        · simp [hn, hr]

theorem Closed.of_after? (marker : IsMarker m ms) (h : Closed m ms (c :: r))
    (hs : after? (m :: ms) (c :: r) = some rest) : rest ≠ [] ∧ Closed m ms rest ∧
      after? (m :: ms) (c :: (r ++ ['\n'])) = some (rest ++ ['\n']) := by
  have heq := after?_eq_some_iff.1 hs
  refine ⟨?_, h.of_suffix (heq ▸ List.suffix_append _ _), ?_⟩
  · rintro rfl
    rw [heq, List.append_nil] at h
    exact h.unmarked (List.suffix_refl _)
  · simpa [hs] using after?_append marker.newline (c :: r) []

theorem unbreak_newline (marker : IsMarker m ms) (w : Bool) (cs : List Char)
    (h : Closed m ms cs) : unbreak m ms w (cs ++ ['\n']) = unbreak m ms w cs ++ ['\n'] := by
  induction w, cs using unbreak.induct m ms with
  | case1 w =>
    rw [unbreak_nil, List.nil_append, unbreak_skip (List.ne_of_not_mem_cons marker.newline).symm,
      unbreak_nil]
  | case2 w d ds hnone ih =>
    have hnone' : after? (m :: ms) (d :: ds) = none := hnone
    have hlong : after? (m :: ms) (d :: (ds ++ ['\n'])) = none := by
      simpa [hnone'] using after?_append marker.newline (d :: ds) []
    rw [unbreak_other hnone', List.cons_append, unbreak_other hlong,
      ih (h.of_suffix (List.suffix_cons _ _)), List.cons_append]
  | case3 w d ds rest hsome next hline ih =>
    have hsome' : after? (m :: ms) (d :: ds) = some rest := hsome
    obtain ⟨hne, closed, hlong⟩ := h.of_after? marker hsome'
    have hline' : afterLineEnd? (rest ++ ['\n']) = some (next ++ ['\n']) := by
      simpa [hline] using afterLineEnd?_newline hne closed.solid
    obtain ⟨a, ha⟩ := afterLineEnd?_eq hline
    have suffix : next <:+ rest := ⟨a ++ ['\n'], by rw [ha, List.append_assoc]; rfl⟩
    rw [unbreak_line hsome' hline, List.cons_append, unbreak_line hlong hline',
      ih (closed.of_suffix suffix), List.cons_append]
  | case4 w d ds rest hsome hline hword ih =>
    have hsome' : after? (m :: ms) (d :: ds) = some rest := hsome
    obtain ⟨hne, closed, hlong⟩ := h.of_after? marker hsome'
    have hline' : afterLineEnd? (rest ++ ['\n']) = none := by
      simpa [hline] using afterLineEnd?_newline hne closed.solid
    have hword' : (w && endsWord (rest ++ ['\n'])) = true := by
      rwa [endsWord_append (.inl hne)]
    rw [unbreak_word hsome' hline hword, List.cons_append, unbreak_word hlong hline' hword',
      ih closed, List.cons_append]
  | case5 w d ds rest hsome hline hword ih =>
    have hsome' : after? (m :: ms) (d :: ds) = some rest := hsome
    obtain ⟨hne, closed, hlong⟩ := h.of_after? marker hsome'
    have hline' : afterLineEnd? (rest ++ ['\n']) = none := by
      simpa [hline] using afterLineEnd?_newline hne closed.solid
    have hinner : (w && endsWord rest) = false := by simpa using hword
    have hinner' : (w && endsWord (rest ++ ['\n'])) = false := by
      rwa [endsWord_append (.inl hne)]
    rw [unbreak_inner hsome' hline hinner, List.cons_append, unbreak_inner hlong hline' hinner',
      ih (h.of_suffix (List.suffix_cons _ _)), List.cons_append]

theorem unbreak_word_newline (marker : IsMarker m ms) (h : ∀ d ∈ cs, Text.isBlank d = false)
    (w : Bool) : unbreak m ms w (cs ++ (m :: ms ++ ['\n'])) = cs ++ [' '] := by
  induction cs generalizing w with
  | nil =>
    have hs : after? (m :: ms) (m :: (ms ++ ['\n'])) = some ['\n'] := after?_eq_some_iff.2 rfl
    rw [List.nil_append, List.cons_append, unbreak_line hs rfl, unbreak_nil]
    rfl
  | cons d ds ih =>
    have rest := ih fun e he => h e (by simp [he])
    rw [List.cons_append]
    cases hs : after? (m :: ms) (d :: (ds ++ (m :: ms ++ ['\n']))) with
    | none =>
      rw [unbreak_other hs, rest]
      rfl
    | some after =>
      have heq := after?_eq_some_iff.1 hs
      have suffix : after <:+ d :: ds ++ m :: ms ++ ['\n'] :=
        ⟨m :: ms, by rw [← heq]; simp⟩
      have hlen := congrArg List.length heq
      simp only [List.length_cons, List.length_append, List.length_nil] at hlen
      -- what follows this marker holds more than the line end
      obtain ⟨t, rfl, ht⟩ : ∃ t, after = t ++ ['\n'] ∧ t <:+ d :: ds ++ m :: ms := by
        refine (List.suffix_concat_iff.1 suffix).resolve_left ?_
        rintro rfl
        simp only [List.length_nil] at hlen
        omega
      obtain ⟨e, es, rfl⟩ : ∃ e es, t = e :: es := by
        refine List.exists_cons_of_ne_nil ?_
        rintro rfl
        simp only [List.nil_append, List.length_singleton] at hlen
        omega
      have hblank : Text.isBlank e = false := by
        rcases List.mem_append.1 (ht.mem (by simp : e ∈ e :: es)) with he | he
        · exact h e he
        · exact marker.blank e he
      have hline : afterLineEnd? (e :: es ++ ['\n']) = none :=
        afterLineEnd?_nonblank (by simpa using hblank)
      have hinner : (w && endsWord (e :: es ++ ['\n'])) = false := by
        rw [List.cons_append, endsWord, hblank, Bool.and_false]
      rw [unbreak_inner hs hline hinner, rest]
      rfl

theorem unbreak_value_newline (marker : IsMarker m ms) (hkey : ∀ d ∈ key, Text.isBlank d = false)
    (hvalue : ∀ d ∈ value, Text.isBlank d = false) (cs : List Char) :
    unbreak m ms true (cs ++ ' ' :: (key ++ '=' :: value ++ m :: ms) ++ ['\n']) =
      unbreak m ms true (cs ++ ' ' :: (key ++ '=' :: value)) ++ [' '] := by
  have hm := marker.blank m (by simp)
  have equals : Text.isBlank '=' = false := by decide
  have space : Text.isBlank ' ' = true := by decide
  have inner : ∀ y, afterLineEnd? ('=' :: y) = none := fun y =>
    afterLineEnd?_nonblank (by simpa using equals)
  have outer : ∀ y, afterLineEnd? (' ' :: (key ++ '=' :: y)) = none := by
    intro y
    have nonblank : ∀ d ∈ (key ++ '=' :: y).head?, Text.isBlank d = false := by
      cases key with
      | nil => simpa using equals
      | cons k ks => simpa using hkey k (by simp)
    exact afterLineEnd?_space nonblank
  have word : ∀ y, unbreak m ms true (cs ++ ' ' :: (key ++ '=' :: y)) =
      unbreak m ms true cs ++ ' ' :: (key ++ '=' :: unbreak m ms false y) := by
    intro y
    rw [unbreak_append hm marker.space (outer y) true cs (.inl space), space,
      unbreak_word_append marker.equals (inner y) hkey (.inr equals), equals]
  have whole : unbreak m ms false value = value := unbroken_word hm marker.space hvalue
  rw [word value, whole, show cs ++ ' ' :: (key ++ '=' :: value ++ m :: ms) ++ ['\n'] =
      cs ++ ' ' :: (key ++ '=' :: (value ++ (m :: ms ++ ['\n']))) by simp, word,
    unbreak_word_newline marker hvalue]
  simp

theorem trim_concat (hc : Text.isBlank c = true) (cs : List Char) :
    Text.Chars.trim (cs ++ [c]) = Text.Chars.trim cs := by
  have last : ∀ x : List Char, Text.Chars.trimEnd (x ++ [c]) = Text.Chars.trimEnd x := by
    intro x
    rw [Text.Chars.trimEnd, List.reverse_append, List.reverse_singleton, List.singleton_append,
      List.dropWhile_cons_of_pos hc]
    rfl
  rw [Text.Chars.trim, Text.Chars.trimStart, List.dropWhile_append]
  split
  · rename_i hempty
    rw [List.dropWhile_cons_of_pos hc, List.dropWhile_nil, Text.Chars.trim, Text.Chars.trimStart,
      List.isEmpty_iff.1 hempty]
  · exact last _

theorem upToDashes_concat (hc : c ≠ '-') (cs : List Char) :
    upToDashes (cs ++ [c]) = ((upToDashes cs).1, (upToDashes cs).2 ++ [c]) ∨
      upToDashes cs = (cs, []) ∧ upToDashes (cs ++ [c]) = (cs ++ [c], []) := by
  induction cs with
  | nil => exact .inr ⟨rfl, by simp [upToDashes, startsDashes]⟩
  | cons d ds ih =>
    have hdashes := startsDashes_append hc ds []
    cases hstop : Text.isBlank d && startsDashes ds with
    | true => exact .inl (by simp [upToDashes, hdashes, hstop])
    | false =>
      rcases ih with hrest | ⟨hall, hlong⟩
      · exact .inl (by simp [upToDashes, hdashes, hstop, hrest])
      · exact .inr ⟨by simp [upToDashes, hstop, hall], by simp [upToDashes, hdashes, hstop, hlong]⟩

theorem split_concat (hc : Text.isBlank c = true) (w : Bool) (cs : List Char) :
    (split w (cs ++ [c])).map (fun e => (e.1, Text.Chars.trim e.2)) =
      (split w cs).map fun e => (e.1, Text.Chars.trim e.2) := by
  have hdash : c ≠ '-' := ne_dash hc
  have hrun : ∀ cs : List Char, (cs ++ [c]).takeWhile isWordChar = cs.takeWhile isWordChar ∧
      (cs ++ [c]).dropWhile isWordChar = cs.dropWhile isWordChar ++ [c] :=
    run_append (by simp [isWordChar, hc])
  have hstarts : ∀ {w d ds}, (w && startsDashes (d :: (ds ++ [c])) &&
      !((ds ++ [c]).tail.takeWhile isWordChar).isEmpty) =
        (w && startsDashes (d :: ds) && !(ds.tail.takeWhile isWordChar).isEmpty) := by
    intro w d ds
    rw [← List.cons_append, startsDashes_append hdash]
    cases ds with
    | nil => simp [startsDashes]
    | cons e es => rw [List.cons_append, List.tail_cons, List.tail_cons, (hrun es).1]
  induction w, cs using split.induct with
  | case1 w =>
    rw [List.nil_append, split_skip (by simp [startsDashes]), split, split]
  | case2 w d ds hstart body ih =>
    have hlong := hstarts.trans hstart
    obtain ⟨e, es, rfl⟩ : ∃ e es, ds = e :: es := by
      refine List.exists_cons_of_ne_nil ?_
      rintro rfl
      simp at hstart
    rw [List.cons_append, split_step hlong, split_step hstart, List.cons_append, List.tail_cons,
      List.tail_cons, (hrun es).1, (hrun es).2, List.map_cons, List.map_cons]
    rcases upToDashes_concat hdash (es.dropWhile isWordChar) with hrest | ⟨hall, hrest⟩
    · simp only [body, List.tail_cons] at ih
      rw [hrest, ih]
    · rw [hrest, hall, trim_concat hc]
  | case3 w d ds hstart ih =>
    have hstart := Bool.eq_false_iff.2 hstart
    rw [List.cons_append, split_pass (hstarts.trans hstart), split_pass hstart, ih]

theorem read_congr {marker text other : String}
    (h : (sections marker text).map (fun e => (e.1, Text.Chars.trim e.2)) =
      (sections marker other).map fun e => (e.1, Text.Chars.trim e.2)) :
    CommandLine.read marker text = CommandLine.read marker other :=
  (read_of_sections h).trans (read_of_sections rfl).symm

theorem read_of_unbreak {marker text other : String} (hm : marker.toList = m :: ms)
    (hc : Text.isBlank c = true)
    (h : unbreak m ms true text.toList = unbreak m ms true other.toList ++ [c]) :
    CommandLine.read marker text = CommandLine.read marker other := by
  refine read_congr ?_
  simp only [sections, hm, normalChars, h]
  exact split_concat hc true _

def storedText (d : Dialect) (text : String) : String :=
  String.ofList (Files.unifyLineEnds (text ++ d.lineEnd).toList)

structure ReadsBack (d : Dialect) (text : String) : Prop where
  whole : ¬d.marker.toList <:+ text.toList →
    CommandLine.read d.marker (storedText d text) = CommandLine.read d.marker text
  cut : ∀ rest, text = rest ++ d.marker →
    CommandLine.read d.marker (storedText d text) = CommandLine.read d.marker rest

theorem unifyLineEnds_append (h : '\r' ∉ cs) (y : List Char) :
    Files.unifyLineEnds (cs ++ y) = cs ++ Files.unifyLineEnds y := by
  induction cs with
  | nil => rfl
  | cons c r ih =>
    have hc : c ≠ '\r' := fun hc => h (hc ▸ List.mem_cons_self)
    have hr := ih fun hr => h (List.mem_cons_of_mem _ hr)
    simp [Files.unifyLineEnds, hc, hr]

theorem unifyLineEnds_lineEnd {d : Dialect} (hd : d ∈ Dialect.all) (y : List Char) :
    Files.unifyLineEnds (d.lineEnd.toList ++ y) = '\n' :: Files.unifyLineEnds y := by
  simp only [Dialect.all, List.mem_cons, List.not_mem_nil, or_false] at hd
  rcases hd with rfl | rfl | rfl <;> rfl

theorem unifyLineEnds_intercalate {d : Dialect} (hd : d ∈ Dialect.all)
    (hm : d.marker.toList = m :: ms) (marker : IsMarker m ms) {parts : List (List Char)}
    (h : ∀ part ∈ parts, '\r' ∉ part) :
    Files.unifyLineEnds (d.separator.toList.intercalate parts ++ d.lineEnd.toList) =
      (' ' :: m :: ms ++ ['\n']).intercalate parts ++ ['\n'] := by
  have line : Files.unifyLineEnds d.lineEnd.toList = ['\n'] := by
    simpa [Files.unifyLineEnds] using unifyLineEnds_lineEnd hd []
  have hmarker : '\r' ∉ ' ' :: m :: ms :=
    List.not_mem_cons_of_ne_of_not_mem (by decide) (marker.not_mem (by decide))
  induction parts with
  | nil => simpa using line
  | cons part r ih =>
    have hpart := h part (by simp)
    cases r with
    | nil => rw [List.intercalate_singleton, List.intercalate_singleton,
        unifyLineEnds_append hpart, line]
    | cons next r =>
      have := ih fun p hp => h p (by simp [hp])
      rw [List.intercalate_cons_cons, List.intercalate_cons_cons, toList_separator hm,
        List.append_assoc, List.append_assoc, List.append_assoc, unifyLineEnds_append hpart,
        unifyLineEnds_append hmarker, unifyLineEnds_lineEnd hd, ← toList_separator hm, this]
      simp

inductive Ending (m : Char) (ms : List Char) : List Char → Prop
  | closed {cs : List Char} : cs ≠ [] → Closed m ms cs → Ending m ms cs
  | value (lead : List Char) {key value : List Char} : (∀ c ∈ key, Text.isBlank c = false) →
    (∀ c ∈ value, Text.isBlank c = false) →
    Ending m ms (lead ++ ' ' :: (key ++ '=' :: value ++ m :: ms))

theorem exists_lead {separator : List Char} (hlast : separator.getLast? = some c)
    (parts : List (List Char)) : ∃ lead : List Char, (∀ e ∈ lead.getLast?, e = c) ∧
      (parts ≠ [] → lead ≠ []) ∧
      ∀ last, separator.intercalate (parts ++ [last]) = lead ++ last := by
  induction parts with
  | nil => exact ⟨[], by simp, fun h => absurd rfl h, fun last => List.intercalate_singleton⟩
  | cons part r ih =>
    obtain ⟨lead, hlead, _, heq⟩ := ih
    refine ⟨part ++ separator ++ lead, fun e he => ?_, fun _ hnil => ?_, fun last => ?_⟩
    · rw [List.getLast?_append, List.getLast?_append, hlast] at he
      cases hl : lead.getLast? with
      | none =>
        rw [hl] at he
        simpa using he.symm
      | some f =>
        rw [hl] at he
        exact hlead e (by rw [hl]; simpa using he)
    · have : separator = [] := (List.append_eq_nil_iff.1 (List.append_eq_nil_iff.1 hnil).1).2
      rw [this] at hlast
      cases hlast
    · obtain ⟨next, s, hs⟩ := List.exists_cons_of_ne_nil (l := r ++ [last]) (by simp)
      rw [List.cons_append, hs, List.intercalate_cons_cons, ← hs, heq, List.append_assoc _ lead]

theorem closed_intercalate (marker : IsMarker m ms) {separator : List Char}
    (hlast : separator.getLast? = some c) (hc : Text.isBlank c = true)
    {parts : List (List Char)} (h : ∀ part ∈ parts.getLast?, part ≠ [] ∧ Closed m ms part) :
    Closed m ms (separator.intercalate parts) := by
  rcases List.eq_nil_or_concat' parts with rfl | ⟨init, last, rfl⟩
  · exact closed_nil
  · obtain ⟨lead, hlead, _, heq⟩ := exists_lead hlast init
    obtain ⟨hne, closed⟩ := h last (by simp)
    rw [heq]
    exact closed.append marker (fun e he => hlead e he ▸ hc) hne

section

variable {d : Dialect} (hd : d ∈ Dialect.all) {parts : List (List Char)} {text : String}
include hd

theorem getLast?_separator : d.separator.toList.getLast? = some '\n' := by
  simp only [Dialect.all, List.mem_cons, List.not_mem_nil, or_false] at hd
  rcases hd with rfl | rfl | rfl <;> decide

theorem unbreak_unified (hm : d.marker.toList = m :: ms) (marker : IsMarker m ms)
    (parts : List (List Char)) :
    unbreak m ms true ((' ' :: m :: ms ++ ['\n']).intercalate parts) =
      unbreak m ms true (d.separator.toList.intercalate parts) := by
  rw [toList_separator hm, unbreak_intercalate marker (afterLineEnd?_lineEnd hd),
    unbreak_intercalate marker fun _ => rfl]

theorem toList_storedText (hm : d.marker.toList = m :: ms) (marker : IsMarker m ms)
    (single : ∀ part ∈ parts, '\r' ∉ part)
    (htext : text.toList = d.separator.toList.intercalate parts) :
    (storedText d text).toList = (' ' :: m :: ms ++ ['\n']).intercalate parts ++ ['\n'] := by
  rw [storedText, String.toList_ofList, String.toList_append, htext,
    unifyLineEnds_intercalate hd hm marker single]

theorem read_stored_closed (hm : d.marker.toList = m :: ms) (marker : IsMarker m ms)
    (single : ∀ part ∈ parts, '\r' ∉ part)
    (h : ∀ part ∈ parts.getLast?, part ≠ [] ∧ Closed m ms part)
    (htext : text.toList = d.separator.toList.intercalate parts) :
    Closed m ms text.toList ∧
      CommandLine.read d.marker (storedText d text) = CommandLine.read d.marker text := by
  have newline : Text.isBlank '\n' = true := by decide
  refine ⟨htext ▸ closed_intercalate marker (getLast?_separator hd) newline h,
    read_of_unbreak hm newline ?_⟩
  rw [toList_storedText hd hm marker single htext,
    unbreak_newline marker true _ (closed_intercalate marker List.getLast?_concat newline h),
    unbreak_unified hd hm marker, htext]

theorem read_stored (hm : d.marker.toList = m :: ms) (marker : IsMarker m ms)
    (single : ∀ part ∈ parts, '\r' ∉ part) (ending : ∀ part ∈ parts.getLast?, Ending m ms part)
    (htext : text.toList = d.separator.toList.intercalate parts) : ReadsBack d text := by
  by_cases shut : ∀ part ∈ parts.getLast?, part ≠ [] ∧ Closed m ms part
  · obtain ⟨closed, same⟩ := read_stored_closed hd hm marker single shut htext
    refine ⟨fun _ => same, fun rest hrest => absurd ?_ closed.unmarked⟩
    rw [hrest, String.toList_append, hm]
    exact List.suffix_append _ _
  · simp only [not_forall, not_and] at shut
    obtain ⟨last, hlast, not_shut⟩ := shut
    obtain ⟨init, rfl⟩ := List.getLast?_eq_some_iff.1 hlast
    cases ending last hlast with
    | closed hne closed => exact absurd closed (not_shut hne)
    | @value line key value hkey hvalue =>
      -- the line end makes the marker of the value one that breaks the line
      obtain ⟨lead, _, _, hlead⟩ := exists_lead (getLast?_separator hd) init
      obtain ⟨lead', _, _, hlead'⟩ := exists_lead
        (List.getLast?_concat (l := ' ' :: m :: ms) (a := '\n')) init
      have hcut : text.toList =
          d.separator.toList.intercalate (init ++ [line ++ ' ' :: (key ++ '=' :: value)]) ++
            d.marker.toList := by
        rw [htext, hlead, hlead, hm]
        simp
      refine ⟨fun h => absurd ⟨_, hcut.symm⟩ h, fun rest hrest => ?_⟩
      have space : Text.isBlank ' ' = true := by decide
      rw [hrest, String.toList_append] at hcut
      refine read_of_unbreak hm space ?_
      rw [toList_storedText hd hm marker single htext, hlead', ← List.append_assoc,
        unbreak_value_newline marker hkey hvalue, List.append_assoc, ← hlead',
        unbreak_unified hd hm marker, List.append_cancel_right hcut]

end

end Sluice.CommandLine
