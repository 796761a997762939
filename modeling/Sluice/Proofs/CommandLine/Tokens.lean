import Sluice.Proofs.CommandLine.Scan

/-! Tokens and the text that they are taken from. Keys and values are pieces of it. An open quote
reaches no further than the next quote of its kind, so that what comes after a blank and holds no
quote is scanned on its own. -/

namespace Sluice.CommandLine

variable {q : Char} {cs rest tail key value : List Char} {t : Token}

def Quoteless (cs : List Char) : Prop :=
  ∀ c ∈ cs, isQuote c = false

instance (cs : List Char) : Decidable (Quoteless cs) :=
  inferInstanceAs (Decidable (∀ c ∈ cs, isQuote c = false))

theorem run_append {p : Char → Bool} (h : ∀ c ∈ rest.head?, p c = false) (cs : List Char) :
    (cs ++ rest).takeWhile p = cs.takeWhile p ∧
      (cs ++ rest).dropWhile p = cs.dropWhile p ++ rest := by
  induction cs with
  | nil =>
    cases rest with
    | nil => exact ⟨rfl, rfl⟩
    | cons c r => simp [h c rfl]
  | cons c r ih =>
    cases hc : p c with
    | true => simpa [hc] using ih
    | false => simp [hc]

theorem Ends.not_word (h : Ends rest) : ∀ c ∈ rest.head?, isWordChar c = false := fun c hc => by
  simp [isWordChar, h c hc]

theorem Ends.not_key (h : Ends rest) : ∀ c ∈ rest.head?, isKeyChar c = false := fun c hc => by
  simp [isKeyChar, h.not_word c hc]

theorem closing?_append (h : q ∉ rest) (cs : List Char) : closing? q (cs ++ rest) =
    (closing? q cs).map fun found => (found.1, found.2 ++ rest) := by
  induction cs with
  | nil =>
    cases hr : closing? q rest with
    | none => exact hr
    | some found =>
      obtain ⟨value, r⟩ := found
      rw [(closing?_eq_some_iff.1 hr).1] at h
      simp at h
  | cons c r ih =>
    by_cases hc : c = q
    · simp [closing?, hc]
    · simp [closing?, hc, ih, Option.map_map, Function.comp_def]

theorem quotedValue?_append (h : Quoteless rest) (cs : List Char) : quotedValue? (cs ++ rest) =
    (quotedValue? cs).map fun found => (found.1, found.2 ++ rest) := by
  cases cs with
  | nil =>
    cases rest with
    | nil => rfl
    | cons c r => simp [quotedValue?, h c List.mem_cons_self]
  | cons c r =>
    cases hc : isQuote c with
    | false => simp [quotedValue?, hc]
    | true =>
      have hnot : c ∉ rest := fun hmem => by simp [h c hmem] at hc
      simp [quotedValue?, hc, closing?_append hnot]

theorem value?_append (ends : Ends rest) (h : Quoteless rest) (cs : List Char) :
    value? (cs ++ rest) = (value? cs).map fun found => (found.1, found.2 ++ rest) := by
  obtain ⟨htake, hdrop⟩ := run_append ends.not_word cs
  unfold value?
  rw [quotedValue?_append h, htake, hdrop]
  cases quotedValue? cs with
  | some found => rfl
  | none => cases cs.takeWhile isWordChar <;> rfl

theorem keyed?_append (ends : Ends rest) (h : Quoteless rest) (cs : List Char) :
    keyed? (cs ++ rest) = (keyed? cs).map fun found => (found.1, found.2.1, found.2.2 ++ rest) := by
  obtain ⟨htake, hdrop⟩ := run_append ends.not_key cs
  unfold keyed?
  rw [htake, hdrop]
  cases hd : cs.dropWhile isKeyChar with
  | nil =>
    cases rest with
    | nil => rfl
    | cons c r =>
      have hne : c ≠ '=' := by
        rintro rfl
        exact absurd (ends '=' rfl) (by decide)
      simp [hne]
  | cons c r =>
    by_cases hc : c = '='
    · subst hc
      cases cs.takeWhile isKeyChar with
      | nil => rfl
      | cons k ks =>
        simp [value?_append ends h, Option.map_map, Function.comp_def]
    · simp [hc]

theorem token?_append (ends : Ends rest) (h : Quoteless rest) (cs : List Char) :
    token? (cs ++ rest) = (token? cs).map fun found => (found.1, found.2 ++ rest) := by
  unfold token?
  rw [keyed?_append ends h, value?_append ends h]
  cases keyed? cs with
  | some found => rfl
  | none => simp [Option.map_map, Function.comp_def]

theorem scan_append (ends : Ends rest) (h : Quoteless rest) (cs : List Char) :
    scan (cs ++ rest) = scan cs ++ scan rest := by
  induction cs using scan.induct with
  | case1 => simp [scan]
  | case2 c r t tail found ih =>
    have found' : token? (c :: (r ++ rest)) = some (t, tail ++ rest) := by
      rw [← List.cons_append, token?_append ends h, found]
      rfl
    rw [List.cons_append, scan_token found', scan_token found, ih]
    rfl
  | case3 c r skipped ih =>
    have skipped' : token? (c :: (r ++ rest)) = none := by
      rw [← List.cons_append, token?_append ends h, skipped]
      rfl
    rw [List.cons_append, scan_skip skipped', scan_skip skipped, ih]

theorem piece_of_quotedValue? (h : quotedValue? cs = some (value, rest)) :
    value <:+: cs ∧ rest <:+ cs := by
  cases cs with
  | nil => cases h
  | cons c r =>
    rw [quotedValue?] at h
    split at h
    · obtain ⟨rfl, _⟩ := closing?_eq_some_iff.1 h
      exact ⟨⟨[c], c :: rest, by simp⟩, ⟨c :: value ++ [c], by simp⟩⟩
    · cases h

theorem piece_of_value? (h : value? cs = some (value, rest)) : value <:+: cs ∧ rest <:+ cs := by
  unfold value? at h
  cases hq : quotedValue? cs with
  | some found =>
    simp only [hq, Option.some.injEq] at h
    exact piece_of_quotedValue? (hq.trans (congrArg some h))
  | none =>
    simp only [hq] at h
    split at h
    · cases h
    · simp only [Option.some.injEq, Prod.mk.injEq] at h
      obtain ⟨rfl, rfl⟩ := h
      exact ⟨(List.takeWhile_prefix _).isInfix, List.dropWhile_suffix _⟩

theorem piece_of_keyed? (h : keyed? cs = some (key, value, rest)) :
    key <:+: cs ∧ value <:+: cs ∧ rest <:+ cs := by
  unfold keyed? at h
  split at h
  · rename_i r hdrop
    have hr : r <:+ cs := (List.suffix_cons _ _).trans (hdrop ▸ List.dropWhile_suffix _)
    split at h
    · cases h
    · obtain ⟨⟨v, tail⟩, hv, heq⟩ := Option.map_eq_some_iff.1 h
      simp only [Prod.mk.injEq] at heq
      obtain ⟨rfl, rfl, rfl⟩ := heq
      obtain ⟨hvalue, htail⟩ := piece_of_value? hv
      exact ⟨(List.takeWhile_prefix _).isInfix, hvalue.trans hr.isInfix, htail.trans hr⟩
  · cases h

structure Within (cs : List Char) (t : Token) : Prop where
  key : ∀ k, t.key = some k → k.toList <:+: cs
  value : ∃ v, v <:+: cs ∧ t.value = String.ofList (Text.Chars.trim v)

theorem Within.mono {ds : List Char} (h : Within cs t) (sub : cs <:+: ds) : Within ds t where
  key k hk := (h.key k hk).trans sub
  value := h.value.imp fun _ hv => ⟨hv.1.trans sub, hv.2⟩

theorem within_of_token? (h : token? cs = some (t, rest)) : Within cs t ∧ rest <:+ cs := by
  unfold token? at h
  split at h
  · rename_i k v tail hk
    simp only [Option.some.injEq, Prod.mk.injEq] at h
    obtain ⟨rfl, rfl⟩ := h
    obtain ⟨hkey, hvalue, htail⟩ := piece_of_keyed? hk
    exact ⟨⟨fun k' hk' => by simpa [token, ← Option.some.inj hk'] using hkey, v, hvalue, rfl⟩,
      htail⟩
  · obtain ⟨⟨v, tail⟩, hv, heq⟩ := Option.map_eq_some_iff.1 h
    simp only [Prod.mk.injEq] at heq
    obtain ⟨rfl, rfl⟩ := heq
    obtain ⟨hvalue, htail⟩ := piece_of_value? hv
    exact ⟨⟨by simp [token], v, hvalue, rfl⟩, htail⟩

theorem within_of_scan (h : t ∈ scan cs) : Within cs t := by
  induction cs using scan.induct with
  | case1 => simp [scan] at h
  | case2 c r u tail found ih =>
    obtain ⟨first, suffix⟩ := within_of_token? found
    rw [scan_token found, List.mem_cons] at h
    rcases h with rfl | h
    · exact first
    · exact (ih h).mono suffix.isInfix
  | case3 c r skipped ih =>
    rw [scan_skip skipped] at h
    exact (ih h).mono (List.suffix_cons c r).isInfix

end Sluice.CommandLine
