import Sluice.Proofs.CommandLine.Split

/-! Values read back. A value that is written with its key, bare or in quotes, is one token
again. -/

namespace Sluice.CommandLine

variable {c q : Char} {cs r rest key value word : List Char} {t : Token}

theorem scan_token (h : token? (c :: r) = some (t, rest)) : scan (c :: r) = t :: scan rest := by
  rw [scan]
  split
  · rename_i t' rest' h'
    rw [h, Option.some.injEq, Prod.mk.injEq] at h'
    rw [h'.1, h'.2]
  · rename_i h'
    rw [h] at h'
    cases h'

theorem scan_skip (h : token? (c :: r) = none) : scan (c :: r) = scan r := by
  rw [scan]
  split
  · rename_i t' rest' h'
    rw [h] at h'
    cases h'
  · rfl

def Ends (cs : List Char) : Prop :=
  ∀ c ∈ cs.head?, Text.isBlank c = true

theorem ends_nil : Ends [] := by
  simp [Ends]

theorem ends_cons (h : Text.isBlank c = true) (r : List Char) : Ends (c :: r) := by
  simpa [Ends] using h

theorem trimmed_of_nonblank (h : ∀ d ∈ cs, Text.isBlank d = false) : Text.Chars.Trimmed cs :=
  ⟨fun d hd => h d (List.mem_of_mem_head? hd), fun d hd => h d (List.mem_of_getLast? hd)⟩

theorem nonblank_of_isKeyChar (h : isKeyChar c = true) : Text.isBlank c = false := by
  simp only [isKeyChar, isWordChar, Bool.and_eq_true, Bool.not_eq_true'] at h
  exact h.2

theorem token_of_trimmed (h : Text.Chars.Trimmed value) (key : Option (List Char)) :
    token key value = ⟨key.map String.ofList, String.ofList value⟩ := by
  rw [token, Text.Chars.trim_eq_self h]

theorem not_quote_of_blank (h : Text.isBlank c = true) : isQuote c = false := by
  rw [Bool.eq_false_iff]
  intro hq
  simp only [isQuote, Bool.or_eq_true, beq_iff_eq] at hq
  rcases hq with rfl | rfl <;> exact absurd h (by decide)

theorem value?_ends (h : Ends cs) : value? cs = none := by
  cases cs with
  | nil => rfl
  | cons c r =>
    have hc : Text.isBlank c = true := h c rfl
    simp [value?, quotedValue?, not_quote_of_blank hc, isWordChar, hc]

theorem keyed?_ends (h : Ends cs) : keyed? cs = none := by
  cases cs with
  | nil => rfl
  | cons c r =>
    have hc : Text.isBlank c = true := h c rfl
    have hk : isKeyChar c = false := by simp [isKeyChar, isWordChar, hc]
    have hne : c ≠ '=' := by
      rintro rfl
      exact absurd hc (by decide)
    simp [keyed?, hk, hne]

theorem token?_blank (h : Text.isBlank c = true) (r : List Char) : token? (c :: r) = none := by
  rw [token?, keyed?_ends (ends_cons h r), value?_ends (ends_cons h r)]
  rfl

theorem value?_word (hne : word ≠ []) (hw : ∀ d ∈ word, Text.isBlank d = false)
    (hq : ∀ d ∈ word.head?, isQuote d = false) (hr : Ends rest) :
    value? (word ++ rest) = some (word, rest) := by
  obtain ⟨htake, hdrop⟩ := takeWhile_word hw hr
  cases word with
  | nil => exact absurd rfl hne
  | cons d ds =>
    rw [List.cons_append] at htake hdrop ⊢
    simp [value?, quotedValue?, hq d rfl, htake, hdrop]

theorem value?_quoted (hq : isQuote q = true) (hv : q ∉ value) (rest : List Char) :
    value? (q :: value ++ q :: rest) = some (value, rest) := by
  have : closing? q (value ++ q :: rest) = some (value, rest) :=
    closing?_eq_some_iff.2 ⟨rfl, hv⟩
  simp [value?, quotedValue?, hq, this]

theorem keyed?_opens (hne : key ≠ []) (hk : ∀ d ∈ key, isKeyChar d = true) (r : List Char) :
    keyed? (key ++ '=' :: r) = (value? r).map fun found => (key, found.1, found.2) := by
  have hdrop : (key ++ '=' :: r).dropWhile isKeyChar = '=' :: r := by
    rw [List.dropWhile_append_of_pos hk]
    simp [isKeyChar]
  have htake : (key ++ '=' :: r).takeWhile isKeyChar = key := by
    rw [List.takeWhile_append_of_pos hk]
    simp [isKeyChar]
  unfold keyed?
  rw [hdrop, htake]
  cases key with
  | nil => exact absurd rfl hne
  | cons d ds => rfl

theorem keyed?_value (hne : key ≠ []) (hk : ∀ d ∈ key, isKeyChar d = true)
    (hv : value? r = some (value, rest)) :
    keyed? (key ++ '=' :: r) = some (key, value, rest) := by
  rw [keyed?_opens hne hk, hv]
  rfl

theorem keyed?_bare (hw : ∀ d ∈ word, isKeyChar d = true) (hr : Ends rest) :
    keyed? (word ++ rest) = none := by
  have hdrop : (word ++ rest).dropWhile isKeyChar = rest := by
    rw [List.dropWhile_append_of_pos hw]
    cases rest with
    | nil => rfl
    | cons c r =>
      have hc : Text.isBlank c = true := hr c rfl
      simp [isKeyChar, isWordChar, hc]
  unfold keyed?
  rw [hdrop]
  split
  · exact absurd (hr '=' rfl) (by decide)
  · rfl

def Scans (cs : List Char) (ts : List Token) : Prop :=
  ∀ rest, Ends rest → scan (cs ++ rest) = ts ++ scan rest

theorem Scans.scan_eq {ts : List Token} (h : Scans cs ts) : scan cs = ts := by
  have := h [] ends_nil
  rw [scan, List.append_nil, List.append_nil] at this
  exact this

theorem scan_blank (h : Text.isBlank c = true) (r : List Char) : scan (c :: r) = scan r :=
  scan_skip (token?_blank h r)

theorem Scans.append {ts us : List Token} (h : Scans cs ts) (hc : Text.isBlank c = true)
    (hr : Scans r us) : Scans (cs ++ c :: r) (ts ++ us) := by
  intro rest hrest
  rw [List.append_assoc, List.cons_append, h _ (ends_cons hc _), scan_blank hc, hr rest hrest,
    List.append_assoc]

theorem scans_token (hne : cs ≠ []) (h : ∀ rest, Ends rest → token? (cs ++ rest) = some (t, rest)) :
    Scans cs [t] := by
  intro rest hr
  cases cs with
  | nil => exact absurd rfl hne
  | cons c r => exact scan_token (h rest hr)

theorem scans_keyed (hne : key ≠ []) (hk : ∀ d ∈ key, isKeyChar d = true)
    (hv : ∀ rest, Ends rest → value? (r ++ rest) = some (value, rest)) :
    Scans (key ++ '=' :: r) [token (some key) value] := by
  refine scans_token (by simp) fun rest hr => ?_
  rw [List.append_assoc, List.cons_append, token?, keyed?_value hne hk (hv rest hr)]

theorem scans_quoted (hne : key ≠ []) (hk : ∀ d ∈ key, isKeyChar d = true) (hq : isQuote q = true)
    (hv : q ∉ value) : Scans (key ++ '=' :: (q :: value ++ [q])) [token (some key) value] := by
  refine scans_keyed hne hk fun rest _ => ?_
  rw [List.append_assoc]
  exact value?_quoted hq hv rest

theorem scans_plain (hne : key ≠ []) (hk : ∀ d ∈ key, isKeyChar d = true) (hv : value ≠ [])
    (hb : ∀ d ∈ value, Text.isBlank d = false) (hq : ∀ d ∈ value.head?, isQuote d = false) :
    Scans (key ++ '=' :: value) [token (some key) value] :=
  scans_keyed hne hk fun _ hr => value?_word hv hb hq hr

theorem scans_bare (hne : word ≠ []) (hw : ∀ d ∈ word, isKeyChar d = true)
    (hq : ∀ d ∈ word.head?, isQuote d = false) : Scans word [token none word] := by
  have hb : ∀ d ∈ word, Text.isBlank d = false := fun d hd => nonblank_of_isKeyChar (hw d hd)
  refine scans_token hne fun rest hr => ?_
  rw [token?, keyed?_bare hw hr, value?_word hne hb hq hr]
  rfl

end Sluice.CommandLine
