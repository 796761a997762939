import Mathlib.Data.List.TakeWhile
import Sluice.CommandLine.Command
import Sluice.Proofs.CommandLine.Joined
import Sluice.Proofs.CommandLine.Unbreak

/-! Command lines taken apart. A section is two dashes, a name and a text in which no two dashes
follow a blank: it ends at the blanks before the next one, and what stands before the first is
passed over. -/

namespace Sluice.CommandLine

variable {m c : Char} {ms cs r y name body gap ending : List Char} {w : Bool}

def Calm : List Char → Prop
  | [] => True
  | c :: r => (Text.isBlank c = true → startsDashes r = false) ∧ Calm r

instance decidableCalm : (cs : List Char) → Decidable (Calm cs)
  | [] => inferInstanceAs (Decidable True)
  | c :: r =>
    have := decidableCalm r
    inferInstanceAs (Decidable ((Text.isBlank c = true → startsDashes r = false) ∧ Calm r))

theorem Calm.tail {a b : List Char} (h : Calm (a ++ b)) : Calm b := by
  induction a with
  | nil => exact h
  | cons c r ih => exact ih h.2

theorem Calm.after {a b : List Char} (h : Calm (a ++ c :: b)) (hc : Text.isBlank c = true) :
    startsDashes b = false :=
  h.tail.1 hc

theorem startsDashes_cons_cons (c d : Char) (r : List Char) :
    startsDashes (c :: d :: r) = (c == '-' && d == '-') := by
  by_cases hc : c = '-' <;> by_cases hd : d = '-' <;> simp [startsDashes, hc, hd]

theorem startsDashes_iff : startsDashes cs = true ↔ ∃ y, cs = '-' :: '-' :: y := by
  constructor
  · intro h
    unfold startsDashes at h
    split at h
    · exact ⟨_, rfl⟩
    · cases h
  · rintro ⟨y, rfl⟩
    rfl

theorem startsDashes_of_ne (h : c ≠ '-') (r : List Char) : startsDashes (c :: r) = false := by
  cases r with
  | nil => simp [startsDashes]
  | cons d r => simp [startsDashes_cons_cons, h]

theorem startsDashes_append (h : c ≠ '-') (cs y : List Char) :
    startsDashes (cs ++ c :: y) = startsDashes cs := by
  cases cs with
  | nil => simp [startsDashes, h]
  | cons d ds =>
    cases ds with
    | nil => simp [startsDashes, h]
    | cons e ds => simp only [List.cons_append, startsDashes_cons_cons]

theorem calm_append (h : c ≠ '-') (hcs : Calm cs) (hy : Calm (c :: y)) : Calm (cs ++ c :: y) := by
  induction cs with
  | nil => exact hy
  | cons d ds ih => exact ⟨fun hd => (startsDashes_append h ds y).trans (hcs.1 hd), ih hcs.2⟩

theorem calm_of_nonblank (h : ∀ d ∈ cs, Text.isBlank d = false) : Calm cs := by
  induction cs with
  | nil => trivial
  | cons d ds ih =>
    refine ⟨fun hd => ?_, ih fun e he => h e (by simp [he])⟩
    simp [h d (by simp)] at hd

theorem ne_dash (h : Text.isBlank c = true) : c ≠ '-' := by
  rintro rfl
  exact absurd h (by decide)

theorem startsDashes_blanks (h : ∀ d ∈ gap, Text.isBlank d = true) (cs : List Char) :
    startsDashes (cs ++ gap) = startsDashes cs := by
  cases gap with
  | nil => rw [List.append_nil]
  | cons d ds => exact startsDashes_append (ne_dash (h d List.mem_cons_self)) cs ds

theorem Calm.append_blanks (hcs : Calm cs) (h : ∀ d ∈ gap, Text.isBlank d = true) :
    Calm (cs ++ gap) := by
  induction cs with
  | nil =>
    induction gap with
    | nil => trivial
    | cons d ds ih =>
      have hds := (List.forall_mem_cons.1 h).2
      exact ⟨fun _ => startsDashes_blanks hds [], ih hds⟩
  | cons d ds ih => exact ⟨fun hd => (startsDashes_blanks h ds).trans (hcs.1 hd), ih hcs.2⟩

theorem upToDashes_calm (h : Calm cs) : upToDashes cs = (cs, []) := by
  induction cs with
  | nil => rfl
  | cons d ds ih =>
    have hd : (Text.isBlank d && startsDashes ds) = false := by
      rw [Bool.and_eq_false_imp]
      exact h.1
    simp [upToDashes, hd, ih h.2]

theorem upToDashes_of_calm (h : Calm cs) (hc : c ≠ '-') :
    upToDashes (cs ++ c :: y) = (cs ++ (upToDashes (c :: y)).1, (upToDashes (c :: y)).2) := by
  induction cs with
  | nil => rfl
  | cons d ds ih =>
    have hd : (Text.isBlank d && startsDashes (ds ++ c :: y)) = false := by
      rw [startsDashes_append hc, Bool.and_eq_false_imp]
      exact h.1
    rw [List.cons_append, upToDashes, hd, ih h.2]
    rfl

theorem upToDashes_blank (h : Calm cs) (hc : Text.isBlank c = true) (y : List Char) :
    upToDashes (cs ++ c :: '-' :: '-' :: y) = (cs, c :: '-' :: '-' :: y) := by
  rw [upToDashes_of_calm h (ne_dash hc), upToDashes, if_pos (by simp [hc, startsDashes]),
    List.append_nil]

theorem split_step
    (h : (w && startsDashes (c :: r) && !(r.tail.takeWhile isWordChar).isEmpty) = true) :
    split w (c :: r) =
      (r.tail.takeWhile isWordChar, (upToDashes (r.tail.dropWhile isWordChar)).1) ::
        split false (upToDashes (r.tail.dropWhile isWordChar)).2 := by
  rw [split, if_pos h]

theorem split_pass
    (h : (w && startsDashes (c :: r) && !(r.tail.takeWhile isWordChar).isEmpty) = false) :
    split w (c :: r) = split (Text.isBlank c) r := by
  rw [split, h]
  simp

theorem split_skip (h : (w && startsDashes (c :: r)) = false) :
    split w (c :: r) = split (Text.isBlank c) r :=
  split_pass (by rw [h, Bool.false_and])

theorem split_lead (hcs : Calm cs) (hw : w = true → startsDashes cs = false)
    (blanks : Blanks gap) (y : List Char) : split w (cs ++ gap ++ y) = split true y := by
  obtain ⟨init, c, rfl, hc, hinit⟩ := blanks.exists_last
  have calm : Calm (cs ++ init) := hcs.append_blanks hinit
  rw [← startsDashes_blanks hinit] at hw
  rw [← List.append_assoc, List.append_assoc, List.singleton_append]
  clear blanks hinit hcs
  generalize cs ++ init = lead at calm hw ⊢
  induction lead generalizing w with
  | nil =>
    rw [List.nil_append, split_skip (by rw [startsDashes_of_ne (ne_dash hc), Bool.and_false]), hc]
  | cons d ds ih =>
    have hd : (w && startsDashes (d :: (ds ++ c :: y))) = false := by
      rw [← List.cons_append, startsDashes_append (ne_dash hc), Bool.and_eq_false_imp]
      exact hw
    rw [List.cons_append, split_skip hd]
    exact ih calm.2 calm.1

theorem split_lead_end (hcs : Calm cs) (hw : w = true → startsDashes cs = false) :
    split w cs = [] := by
  induction cs generalizing w with
  | nil => rw [split]
  | cons d ds ih =>
    rw [split_skip (by rw [Bool.and_eq_false_imp]; exact hw)]
    exact ih hcs.2 hcs.1

/-- A task word and the text after it, which can be told apart from what stands around them. -/
structure IsSection (name body : List Char) : Prop where
  name_ne_nil : name ≠ []
  name : ∀ c ∈ name, Text.isBlank c = false
  trimmed : Text.Chars.Trimmed body
  calm : Calm body
  dashless : startsDashes body = false

theorem takeWhile_word (h : ∀ c ∈ name, Text.isBlank c = false)
    (hr : ∀ c ∈ r.head?, Text.isBlank c = true) :
    (name ++ r).takeWhile isWordChar = name ∧ (name ++ r).dropWhile isWordChar = r := by
  have hn : ∀ c ∈ name, isWordChar c = true := fun c hc => by simp [isWordChar, h c hc]
  have hstop : r.takeWhile isWordChar = [] ∧ r.dropWhile isWordChar = r := by
    cases r with
    | nil => exact ⟨rfl, rfl⟩
    | cons c cs =>
      have hc : isWordChar c = false := by simp [isWordChar, hr c rfl]
      simp [hc]
  rw [List.takeWhile_append_of_pos hn, List.dropWhile_append_of_pos hn, hstop.1, hstop.2]
  exact ⟨List.append_nil _, rfl⟩

theorem split_name (hne : name ≠ []) (hn : ∀ c ∈ name, Text.isBlank c = false)
    (hr : ∀ c ∈ r.head?, Text.isBlank c = true) :
    split true ('-' :: '-' :: name ++ r) =
      (name, (upToDashes r).1) :: split false (upToDashes r).2 := by
  obtain ⟨htake, hdrop⟩ := takeWhile_word hn hr
  rw [List.cons_append, List.cons_append, split]
  simp only [List.tail_cons, startsDashes, htake, hdrop, Bool.true_and]
  rw [if_pos (by simpa using hne)]

theorem trim_padding (before after : List Char) (h : Text.Chars.Trimmed body)
    (hb : ∀ c ∈ before, Text.isBlank c = true) (ha : ∀ c ∈ after, Text.isBlank c = true) :
    Text.Chars.trim (before ++ (body ++ after)) = body := by
  have hall : ∀ c ∈ after.reverse, Text.isBlank c = true := by simpa using ha
  rw [Text.Chars.trim, Text.Chars.trimStart, List.dropWhile_append_of_pos hb]
  cases body with
  | nil =>
    rw [List.nil_append, List.dropWhile_eq_nil_iff.2 ha]
    rfl
  | cons c r =>
    have hlast : ∀ d ∈ (c :: r).reverse.head?, Text.isBlank d = false := by
      rw [List.head?_reverse]
      exact h.2
    rw [List.cons_append, List.dropWhile_cons_of_neg (by simp [h.1 c rfl]), ← List.cons_append,
      Text.Chars.trimEnd, List.reverse_append, List.dropWhile_append_of_pos hall,
      Text.Chars.dropWhile_eq_self hlast, List.reverse_reverse]

theorem split_section (hne : name ≠ []) (hn : ∀ c ∈ name, Text.isBlank c = false)
    (calm : Calm ending) (ends : ∀ c ∈ ending.head?, Text.isBlank c = true) (blanks : Blanks gap)
    (y : List Char) : ∃ padding, (∀ c ∈ padding, Text.isBlank c = true) ∧
      split true ('-' :: '-' :: name ++ ending ++ gap ++ '-' :: '-' :: y) =
        (name, ending ++ padding) :: split true ('-' :: '-' :: y) := by
  obtain ⟨init, c, rfl, hc, hinit⟩ := blanks.exists_last
  have hhead : ∀ d ∈ (ending ++ init ++ c :: '-' :: '-' :: y).head?, Text.isBlank d = true := by
    cases ending with
    | nil =>
      cases init with
      | nil => simpa using hc
      | cons e es => simpa using hinit e
    | cons e es => simpa using ends
  refine ⟨init, hinit, ?_⟩
  have regroup : '-' :: '-' :: name ++ ending ++ (init ++ [c]) ++ '-' :: '-' :: y =
      '-' :: '-' :: name ++ (ending ++ init ++ c :: '-' :: '-' :: y) := by simp
  rw [regroup, split_name hne hn hhead, upToDashes_blank (calm.append_blanks hinit) hc,
    split_skip rfl, hc]

theorem split_section_end (hne : name ≠ []) (hn : ∀ c ∈ name, Text.isBlank c = false)
    (calm : Calm ending) (ends : ∀ c ∈ ending.head?, Text.isBlank c = true) :
    split true ('-' :: '-' :: name ++ ending) = [(name, ending)] := by
  rw [split_name hne hn ends, upToDashes_calm calm, split]

theorem head_unbreak (m : Char) (ms : List Char) (w : Bool) (c : Char) (r : List Char) :
    ∃ y, unbreak m ms w (c :: r) = c :: y ∨ unbreak m ms w (c :: r) = ' ' :: y := by
  cases hs : after? (m :: ms) (c :: r) with
  | none => exact ⟨_, .inl (unbreak_other hs)⟩
  | some rest =>
    cases hl : afterLineEnd? rest with
    | some next => exact ⟨_, .inr (unbreak_line hs hl)⟩
    | none =>
      cases hw : w && endsWord rest with
      | true => exact ⟨_, .inr (unbreak_word hs hl hw)⟩
      | false => exact ⟨_, .inl (unbreak_inner hs hl hw)⟩

theorem startsDashes_unbreak (hm : m ≠ '-') (h : startsDashes cs = false) :
    startsDashes (unbreak m ms w cs) = false := by
  cases cs with
  | nil => simp [startsDashes]
  | cons c r =>
    by_cases hc : m = c
    · obtain ⟨y, hy | hy⟩ := head_unbreak m ms w c r
      · rw [hy, ← hc]
        exact startsDashes_of_ne hm y
      · rw [hy]
        exact startsDashes_of_ne (by decide) y
    · rw [unbreak_skip hc]
      cases r with
      | nil => simp [startsDashes]
      | cons d r =>
        rw [startsDashes_cons_cons] at h
        obtain ⟨y, hy | hy⟩ := head_unbreak m ms (Text.isBlank c) d r
        · rw [hy, startsDashes_cons_cons, h]
        · rw [hy, startsDashes_cons_cons]
          simp

theorem afterLineEnd?_eq {next : List Char} (h : afterLineEnd? cs = some next) :
    ∃ a, cs = a ++ '\n' :: next := by
  have split := List.takeWhile_append_dropWhile (p := fun c => c = ' ' ∨ c = '\t') (l := cs)
  unfold afterLineEnd? at h
  split at h
  · rename_i r hr
    cases h
    rw [hr] at split
    exact ⟨_, split.symm⟩
  · rename_i r hr
    cases h
    rw [hr] at split
    exact ⟨cs.takeWhile (fun c => c = ' ' ∨ c = '\t') ++ ['\r'], by simpa using split.symm⟩
  · cases h

theorem calm_unbreak (hm : m ≠ '-') (h : Calm cs) : Calm (unbreak m ms w cs) := by
  induction w, cs using unbreak.induct m ms with
  | case1 w => simpa using h
  | case2 w c r hnone ih =>
    rw [unbreak_other hnone]
    exact ⟨fun hc => startsDashes_unbreak hm (h.1 hc), ih h.2⟩
  | case3 w c r rest hsome next hline ih =>
    have hsome' : after? (m :: ms) (c :: r) = some rest := hsome
    obtain ⟨a, ha⟩ := afterLineEnd?_eq hline
    rw [after?_eq_some_iff, ha] at hsome'
    rw [hsome', ← List.append_assoc] at h
    rw [unbreak_line hsome hline]
    exact ⟨fun _ => startsDashes_unbreak hm (h.after (by decide)), ih h.tail.2⟩
  | case4 w c r rest hsome hline hword ih =>
    have hsome' : after? (m :: ms) (c :: r) = some rest := hsome
    rw [after?_eq_some_iff] at hsome'
    rw [hsome'] at h
    rw [unbreak_word hsome hline hword]
    refine ⟨fun _ => startsDashes_unbreak hm ?_, ih h.tail⟩
    cases rest with
    | nil => rfl
    | cons d ds =>
      simp only [endsWord, Bool.and_eq_true] at hword
      refine startsDashes_of_ne ?_ ds
      rintro rfl
      exact absurd hword.2 (by decide)
  | case5 w c r rest hsome hline hword ih =>
    rw [unbreak_inner hsome hline (by simpa using hword)]
    exact ⟨fun hc => startsDashes_unbreak hm (h.1 hc), ih h.2⟩

end Sluice.CommandLine
