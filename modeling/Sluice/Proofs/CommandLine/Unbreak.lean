import Sluice.CommandLine.Marker
import Sluice.Dialect
import Sluice.Text.Digits

/-! Broken lines. Only a marker before a line end, or one that is a word of its own, is taken out of
a text: a text without such a marker stays as it is, also as a part of a longer one. -/

namespace Sluice.CommandLine

variable {m c : Char} {ms cs r rest next : List Char} {w : Bool}

@[simp] theorem unbreak_nil : unbreak m ms w [] = [] := by
  rw [unbreak]

theorem unbreak_other (h : after? (m :: ms) (c :: r) = none) :
    unbreak m ms w (c :: r) = c :: unbreak m ms (Text.isBlank c) r := by
  rw [after?] at h
  rw [unbreak]
  split
  · rfl
  · rename_i h'
    rw [h] at h'
    cases h'

theorem unbreak_line (h : after? (m :: ms) (c :: r) = some rest)
    (hl : afterLineEnd? rest = some next) :
    unbreak m ms w (c :: r) = ' ' :: unbreak m ms true next := by
  rw [after?] at h
  rw [unbreak]
  split
  · rename_i h'
    rw [h] at h'
    cases h'
  · rename_i h'
    rw [h, Option.some.injEq] at h'
    subst h'
    split
    · rename_i hl'
      rw [hl, Option.some.injEq] at hl'
      rw [hl']
    · rename_i hl'
      rw [hl] at hl'
      cases hl'

theorem unbreak_word (h : after? (m :: ms) (c :: r) = some rest) (hl : afterLineEnd? rest = none)
    (hw : (w && endsWord rest) = true) : unbreak m ms w (c :: r) =
      ' ' :: unbreak m ms (Text.isBlank ((m :: ms).getLast (by simp))) rest := by
  rw [after?] at h
  rw [unbreak]
  split
  · rename_i h'
    rw [h] at h'
    cases h'
  · rename_i h'
    rw [h, Option.some.injEq] at h'
    subst h'
    split
    · rename_i hl'
      rw [hl] at hl'
      cases hl'
    · rw [if_pos hw]

theorem unbreak_inner (h : after? (m :: ms) (c :: r) = some rest) (hl : afterLineEnd? rest = none)
    (hw : (w && endsWord rest) = false) :
    unbreak m ms w (c :: r) = c :: unbreak m ms (Text.isBlank c) r := by
  rw [after?] at h
  rw [unbreak]
  split
  · rfl
  · rename_i h'
    rw [h, Option.some.injEq] at h'
    subst h'
    split
    · rename_i hl'
      rw [hl] at hl'
      cases hl'
    · rw [if_neg (by simp [hw])]

theorem unbreak_skip (h : m ≠ c) :
    unbreak m ms w (c :: r) = c :: unbreak m ms (Text.isBlank c) r :=
  unbreak_other (by simp [after?, h])

theorem after?_append (h : c ∉ ms) (cs y : List Char) :
    after? ms (cs ++ c :: y) = (after? ms cs).map (· ++ c :: y) := by
  induction ms generalizing cs with
  | nil => simp [after?]
  | cons v vs ih =>
    have hv := List.ne_of_not_mem_cons h
    have hvs := List.not_mem_of_not_mem_cons h
    cases cs with
    | nil => simp [after?, Ne.symm hv]
    | cons d ds =>
      by_cases hd : v = d
      · simp [after?, hd, ih hvs]
      · simp [after?, hd]

theorem afterLineEnd?_append {y : List Char} (h : afterLineEnd? (c :: y) = none) (cs : List Char) :
    afterLineEnd? (cs ++ c :: y) = (afterLineEnd? cs).map (· ++ c :: y) := by
  have hc : c ≠ '\n' := by
    rintro rfl
    simp [afterLineEnd?] at h
  induction cs with
  | nil => simpa [afterLineEnd?] using h
  | cons d ds ih =>
    by_cases hd : d = ' ' ∨ d = '\t'
    · simpa [afterLineEnd?, hd] using ih
    · have keep : ∀ x : List Char, (d :: x).dropWhile (fun c => c = ' ' ∨ c = '\t') = d :: x := by
        intro x
        simp [hd]
      simp only [afterLineEnd?, List.cons_append, keep]
      by_cases hn : d = '\n'
      · subst hn
        rfl
      · by_cases hr : d = '\r'
        · subst hr
          cases ds with
          | nil => simp [hc]
          | cons e es => by_cases he : e = '\n' <;> simp [he]
        · simp [hn, hr]

theorem endsWord_append {y : List Char} (h : cs ≠ [] ∨ Text.isBlank c = true) :
    endsWord (cs ++ c :: y) = endsWord cs := by
  cases cs with
  | nil => simpa [endsWord] using h
  | cons d ds => rfl

theorem head_of_after? (h : after? (m :: ms) (c :: r) = some rest) : m = c := by
  rw [after?] at h
  split at h
  · assumption
  · cases h

def Unbroken (m : Char) (ms : List Char) (w : Bool) (cs : List Char) : Prop :=
  unbreak m ms w cs = cs

theorem normalize_eq_iff {marker text : String} (hm : marker.toList = m :: ms) :
    normalize marker text = text ↔ Unbroken m ms true text.toList := by
  rw [normalize, hm, normalChars, Unbroken, ← String.toList_inj, String.toList_ofList]

/-- The marker ends no line of the text and is no word of it. -/
def Unmarked (marker cs : List Char) : Prop :=
  ∀ before after, cs = before ++ marker ++ after → afterLineEnd? after = none ∧
    ((∀ c ∈ before.getLast?, Text.isBlank c = true) → endsWord after = false)

theorem Unmarked.unbroken (h : Unmarked (m :: ms) cs) : Unbroken m ms true cs := by
  have go : ∀ rest before w, cs = before ++ rest →
      (w = true → ∀ c ∈ before.getLast?, Text.isBlank c = true) → unbreak m ms w rest = rest := by
    intro rest
    induction rest with
    | nil => exact fun _ w _ _ => unbreak_nil
    | cons c r ih =>
      intro before w hcs hw
      have hnext := ih (before ++ [c]) (Text.isBlank c) (by simp [hcs]) (by simp)
      cases hs : after? (m :: ms) (c :: r) with
      | none => rw [unbreak_other hs, hnext]
      | some after =>
        obtain ⟨hline, hword⟩ := h before after
          (by rw [hcs, after?_eq_some_iff.1 hs, List.append_assoc])
        have hinner : (w && endsWord after) = false := by
          cases hwt : w with
          | false => rfl
          | true => rw [hword (hw hwt), Bool.and_false]
        rw [unbreak_inner hs hline hinner, hnext]
  exact go cs [] true rfl (by simp)

theorem Unbroken.not_line (hm : Text.isBlank m = false) (h : Unbroken m ms w (c :: r))
    (hs : after? (m :: ms) (c :: r) = some rest) :
    afterLineEnd? rest = none ∧ (w && endsWord rest) = false := by
  have ne : ' ' ≠ c := by
    rintro rfl
    rw [head_of_after? hs] at hm
    exact absurd hm (by decide)
  unfold Unbroken at h
  cases hl : afterLineEnd? rest with
  | some next =>
    rw [unbreak_line hs hl, List.cons.injEq] at h
    exact absurd h.1 ne
  | none =>
    refine ⟨rfl, Bool.eq_false_iff.2 fun hw => ?_⟩
    rw [unbreak_word hs hl hw, List.cons.injEq] at h
    exact absurd h.1 ne

theorem Unbroken.tail (hm : Text.isBlank m = false) (h : Unbroken m ms w (c :: r)) :
    Unbroken m ms (Text.isBlank c) r := by
  cases hs : after? (m :: ms) (c :: r) with
  | none => exact (List.cons.inj ((unbreak_other hs).symm.trans h)).2
  | some rest =>
    obtain ⟨hline, hword⟩ := h.not_line hm hs
    exact (List.cons.inj ((unbreak_inner hs hline hword).symm.trans h)).2

theorem unmarked_iff_unbroken (hm : Text.isBlank m = false) :
    Unmarked (m :: ms) cs ↔ Unbroken m ms true cs := by
  refine ⟨Unmarked.unbroken, fun h before after hcs => ?_⟩
  have go : ∀ before cs w, cs = before ++ (m :: ms) ++ after → Unbroken m ms w cs →
      afterLineEnd? after = none ∧ ((before = [] → w = true) →
        (∀ c ∈ before.getLast?, Text.isBlank c = true) → endsWord after = false) := by
    intro before
    induction before with
    | nil =>
      rintro _ w rfl h
      obtain ⟨hline, hword⟩ := h.not_line hm (after?_eq_some_iff.2 rfl)
      refine ⟨hline, fun hw _ => ?_⟩
      rwa [hw rfl, Bool.true_and] at hword
    | cons c r ih =>
      rintro _ w rfl h
      obtain ⟨hline, hword⟩ := ih _ _ rfl (h.tail hm)
      refine ⟨hline, fun _ hlast => hword (fun hr => ?_) fun d hd => ?_⟩
      · exact hlast c (by rw [hr]; rfl)
      · exact hlast d (by rw [List.getLast?_cons, Option.mem_def.1 hd]; rfl)
  obtain ⟨hline, hword⟩ := go before cs true hcs h
  exact ⟨hline, hword fun _ => rfl⟩

theorem unbreak_append {y : List Char} (hm : Text.isBlank m = false) (hc : c ∉ m :: ms)
    (hl : afterLineEnd? (c :: y) = none) (w : Bool) (cs : List Char)
    (hb : Text.isBlank c = true ∨ Unbroken m ms w cs) :
    unbreak m ms w (cs ++ c :: y) = unbreak m ms w cs ++ c :: unbreak m ms (Text.isBlank c) y := by
  have go := fun cs => after?_append hc cs y
  induction w, cs using unbreak.induct m ms with
  | case1 w =>
    rw [unbreak_nil, List.nil_append, List.nil_append]
    exact unbreak_skip (List.ne_of_not_mem_cons hc).symm
  | case2 w d ds hnone ih =>
    have hnone' : after? (m :: ms) (d :: ds) = none := hnone
    have hlong : after? (m :: ms) (d :: (ds ++ c :: y)) = none := by
      simpa [hnone'] using go (d :: ds)
    unfold Unbroken at hb
    rw [unbreak_other hnone'] at hb ⊢
    rw [List.cons_append, unbreak_other hlong, ih (by simpa [Unbroken] using hb), List.cons_append]
  | case3 w d ds rest hsome next hline ih =>
    have hsome' : after? (m :: ms) (d :: ds) = some rest := hsome
    have hlong : after? (m :: ms) (d :: (ds ++ c :: y)) = some (rest ++ c :: y) := by
      simpa [hsome'] using go (d :: ds)
    have hline' : afterLineEnd? (rest ++ c :: y) = some (next ++ c :: y) := by
      simpa [hline] using afterLineEnd?_append hl rest
    have hblank : Text.isBlank c = true := hb.resolve_right fun h => by
      have := (h.not_line hm hsome').1
      rw [hline] at this
      cases this
    rw [unbreak_line hsome' hline, List.cons_append, unbreak_line hlong hline',
      ih (.inl hblank), List.cons_append]
  | case4 w d ds rest hsome hline hword ih =>
    have hsome' : after? (m :: ms) (d :: ds) = some rest := hsome
    have hlong : after? (m :: ms) (d :: (ds ++ c :: y)) = some (rest ++ c :: y) := by
      simpa [hsome'] using go (d :: ds)
    have hline' : afterLineEnd? (rest ++ c :: y) = none := by
      simpa [hline] using afterLineEnd?_append hl rest
    have hblank : Text.isBlank c = true := hb.resolve_right fun h => by
      have := (h.not_line hm hsome').2
      rw [hword] at this
      cases this
    have hword' : (w && endsWord (rest ++ c :: y)) = true := by
      rwa [endsWord_append (.inr hblank)]
    rw [unbreak_word hsome' hline hword, List.cons_append, unbreak_word hlong hline' hword',
      ih (.inl hblank), List.cons_append]
  | case5 w d ds rest hsome hline hword ih =>
    have hsome' : after? (m :: ms) (d :: ds) = some rest := hsome
    have hlong : after? (m :: ms) (d :: (ds ++ c :: y)) = some (rest ++ c :: y) := by
      simpa [hsome'] using go (d :: ds)
    have hline' : afterLineEnd? (rest ++ c :: y) = none := by
      simpa [hline] using afterLineEnd?_append hl rest
    have hinner : (w && endsWord rest) = false := by simpa using hword
    have hinner' : (w && endsWord (rest ++ c :: y)) = false := by
      cases rest with
      | cons e es => exact hinner
      | nil =>
        rw [show w = false by simpa [endsWord] using hinner, Bool.false_and]
    unfold Unbroken at hb
    rw [unbreak_inner hsome' hline hinner] at hb ⊢
    rw [List.cons_append, unbreak_inner hlong hline' hinner',
      ih (by simpa [Unbroken] using hb), List.cons_append]

theorem after?_nonblank (h : ∀ d ∈ c :: r, Text.isBlank d = false)
    (hs : after? (m :: ms) (c :: r) = some rest) : ∀ d ∈ rest, Text.isBlank d = false := by
  rw [after?_eq_some_iff] at hs
  intro d hd
  exact h d (by simp [hs, hd])

theorem afterLineEnd?_nonblank (h : ∀ d ∈ cs.head?, Text.isBlank d = false) :
    afterLineEnd? cs = none := by
  cases cs with
  | nil => rfl
  | cons d ds =>
    have hd : Text.isBlank d = false := h d rfl
    have ne : ∀ e, Text.isBlank e = true → d ≠ e := by
      rintro e he rfl
      simp [hd] at he
    have h1 := ne ' ' (by decide)
    have h2 := ne '\t' (by decide)
    have h3 := ne '\n' (by decide)
    have h4 := ne '\r' (by decide)
    simp [afterLineEnd?, h1, h2, h3, h4]

theorem afterLineEnd?_space (h : ∀ d ∈ cs.head?, Text.isBlank d = false) :
    afterLineEnd? (' ' :: cs) = none := by
  simpa [afterLineEnd?] using afterLineEnd?_nonblank h

theorem unbreak_word_append {y : List Char} (hc : c ∉ m :: ms)
    (hl : afterLineEnd? (c :: y) = none) (h : ∀ d ∈ cs, Text.isBlank d = false)
    (hw : w = false ∨ Text.isBlank c = false) :
    unbreak m ms w (cs ++ c :: y) = cs ++ c :: unbreak m ms (Text.isBlank c) y := by
  have go := fun cs => after?_append hc cs y
  induction cs generalizing w with
  | nil => exact unbreak_skip (List.ne_of_not_mem_cons hc).symm
  | cons d ds ih =>
    have hd : Text.isBlank d = false := h d (by simp)
    have rest := ih (fun e he => h e (by simp [he])) (.inl hd)
    cases hs : after? (m :: ms) (d :: ds) with
    | none =>
      have hlong : after? (m :: ms) (d :: (ds ++ c :: y)) = none := by simpa [hs] using go (d :: ds)
      rw [List.cons_append, unbreak_other hlong, rest]
      rfl
    | some after =>
      have hlong : after? (m :: ms) (d :: (ds ++ c :: y)) = some (after ++ c :: y) := by
        simpa [hs] using go (d :: ds)
      have hclear := after?_nonblank h hs
      have hline : afterLineEnd? (after ++ c :: y) = none := by
        rw [afterLineEnd?_append hl, afterLineEnd?_nonblank]
        · rfl
        · exact fun e he => hclear e (List.mem_of_mem_head? he)
      have hinner : (w && endsWord (after ++ c :: y)) = false := by
        rcases hw with rfl | hblank
        · rfl
        · cases after with
          | nil => simp [endsWord, hblank]
          | cons e es => simp [endsWord, hclear e (by simp)]
      rw [List.cons_append, unbreak_inner hlong hline hinner, rest]
      rfl

theorem unbroken_word (hm : Text.isBlank m = false) (hs : ' ' ∉ m :: ms)
    (h : ∀ d ∈ cs, Text.isBlank d = false) : Unbroken m ms false cs := by
  have inner := unbreak_word_append hs (y := []) rfl h (.inl rfl)
  rw [unbreak_append hm hs rfl false cs (.inl rfl)] at inner
  exact List.append_cancel_right inner

theorem Unbroken.inner (hm : Text.isBlank m = false) (h : Unbroken m ms true cs) :
    Unbroken m ms false cs := by
  cases cs with
  | nil => exact unbreak_nil
  | cons c r =>
    unfold Unbroken at h ⊢
    cases hs : after? (m :: ms) (c :: r) with
    | none =>
      rw [unbreak_other hs] at h ⊢
      exact h
    | some rest =>
      obtain ⟨hline, hword⟩ := Unbroken.not_line hm h hs
      rw [unbreak_inner hs hline hword] at h
      rw [unbreak_inner hs hline rfl]
      exact h

theorem afterLineEnd?_lineEnd {d : Dialect} (hd : d ∈ Dialect.all) (y : List Char) :
    afterLineEnd? (d.lineEnd.toList ++ y) = some y := by
  simp only [Dialect.all, List.mem_cons, List.not_mem_nil, or_false] at hd
  rcases hd with rfl | rfl | rfl <;> rfl

structure IsMarker (m : Char) (ms : List Char) : Prop where
  blank : ∀ c ∈ m :: ms, Text.isBlank c = false
  quote : '"' ∉ m :: ms
  equals : '=' ∉ m :: ms
  dash : m ≠ '-'
  digit : Text.isDigit m = false

theorem IsMarker.not_mem (h : IsMarker m ms) (hc : Text.isBlank c = true) : c ∉ m :: ms := by
  intro hmem
  rw [h.blank c hmem] at hc
  cases hc

theorem IsMarker.space (h : IsMarker m ms) : ' ' ∉ m :: ms :=
  h.not_mem (by decide)

theorem IsMarker.newline (h : IsMarker m ms) : '\n' ∉ m :: ms :=
  h.not_mem (by decide)

theorem exists_marker {d : Dialect} (hd : d ∈ Dialect.all) :
    ∃ m ms, d.marker.toList = m :: ms ∧ IsMarker m ms := by
  simp only [Dialect.all, List.mem_cons, List.not_mem_nil, or_false] at hd
  rcases hd with rfl | rfl | rfl
  · exact ⟨'\\', [], rfl, by decide, by decide, by decide, by decide, by decide⟩
  · exact ⟨'^', [], rfl, by decide, by decide, by decide, by decide, by decide⟩
  · exact ⟨'<', "linebreak>".toList, rfl, by decide, by decide, by decide, by decide, by decide⟩

theorem unbroken_of_nonblank (marker : IsMarker m ms) (h : ∀ d ∈ cs, Text.isBlank d = false)
    (hne : cs ≠ m :: ms) : Unbroken m ms true cs := by
  cases cs with
  | nil => exact unbreak_nil
  | cons c r =>
    have hr : unbreak m ms false r = r := unbroken_word (marker.blank m (by simp)) marker.space
      fun d hd => h d (by simp [hd])
    rw [← h c (by simp)] at hr
    rw [Unbroken]
    cases hs : after? (m :: ms) (c :: r) with
    | none => rw [unbreak_other hs, hr]
    | some rest =>
      have hclear := after?_nonblank h hs
      have hline : afterLineEnd? rest = none :=
        afterLineEnd?_nonblank fun d hd => hclear d (List.mem_of_mem_head? hd)
      have hinner : (true && endsWord rest) = false := by
        cases rest with
        | nil => exact absurd (by simpa using after?_eq_some_iff.1 hs) hne
        | cons e es => simp [endsWord, hclear e (by simp)]
      rw [unbreak_inner hs hline hinner, hr]

theorem Unbroken.append_space (marker : IsMarker m ms) (hcs : Unbroken m ms true cs)
    (hr : Unbroken m ms true r) (hhead : ∀ c ∈ r.head?, Text.isBlank c = false) :
    Unbroken m ms true (cs ++ ' ' :: r) := by
  have space : Text.isBlank ' ' = true := by decide
  unfold Unbroken at hcs hr ⊢
  rw [unbreak_append (marker.blank m List.mem_cons_self) marker.space (afterLineEnd?_space hhead)
    true cs (.inl space), hcs, space, hr]

theorem toList_separator {d : Dialect} (hm : d.marker.toList = m :: ms) :
    d.separator.toList = ' ' :: m :: ms ++ d.lineEnd.toList := by
  simp [Dialect.separator, hm]

theorem unbreak_separator {lineEnd : List Char} (marker : IsMarker m ms)
    (ends : ∀ y, afterLineEnd? (lineEnd ++ y) = some y) (cs y : List Char) :
    unbreak m ms true (cs ++ (' ' :: m :: ms ++ lineEnd) ++ y) =
      unbreak m ms true cs ++ ' ' :: ' ' :: unbreak m ms true y := by
  have blank := marker.blank m (by simp)
  have hm' : after? (m :: ms) (m :: (ms ++ (lineEnd ++ y))) = some (lineEnd ++ y) := by
    rw [after?_eq_some_iff, List.cons_append]
  have hline : afterLineEnd? (' ' :: m :: (ms ++ (lineEnd ++ y))) = none :=
    afterLineEnd?_space (by simpa using blank)
  rw [List.append_assoc, List.cons_append, List.cons_append, List.cons_append, List.cons_append,
    List.append_assoc, unbreak_append blank marker.space hline true cs (.inl rfl),
    unbreak_line hm' (ends y)]

theorem unbreak_intercalate {lineEnd : List Char} (marker : IsMarker m ms)
    (ends : ∀ y, afterLineEnd? (lineEnd ++ y) = some y) (parts : List (List Char)) :
    unbreak m ms true ((' ' :: m :: ms ++ lineEnd).intercalate parts) =
      [' ', ' '].intercalate (parts.map (unbreak m ms true)) := by
  induction parts with
  | nil => exact unbreak_nil
  | cons part r ih =>
    cases r with
    | nil => simp
    | cons next r =>
      rw [List.intercalate_cons_cons, unbreak_separator marker ends, ih]
      simp

end Sluice.CommandLine
