import Sluice.CommandLine.Marker

/-! Tokens: the values in the text of a task, with or without a key. A value is a run of
characters that are not blank, or anything between two equal quotes. A quote that is never closed
is a character like any other. -/

namespace Sluice

/-- A token without a key holds the positional value. -/
structure Token where
  key : Option String
  value : String
  deriving DecidableEq, Repr

namespace CommandLine

def isWordChar (c : Char) : Bool :=
  !Text.isBlank c

def isKeyChar (c : Char) : Bool :=
  c != '=' && isWordChar c

def closing? (quote : Char) : List Char → Option (List Char × List Char)
  | [] => none
  | c :: r =>
    if c = quote then some ([], r)
    else (closing? quote r).map fun (value, rest) => (c :: value, rest)

theorem closing?_eq_some_iff {quote : Char} {cs value rest : List Char} :
    closing? quote cs = some (value, rest) ↔ cs = value ++ quote :: rest ∧ quote ∉ value := by
  induction cs generalizing value with
  | nil => simp [closing?]
  | cons c r ih =>
    by_cases h : c = quote
    · cases value with
      | nil => simp [closing?, h]
      | cons v vs =>
        simp only [closing?, h, if_true, Option.some.injEq, Prod.mk.injEq, List.cons_append,
          List.cons.injEq, List.mem_cons, not_or]
        constructor
        · rintro ⟨h, _⟩
          cases h
        · rintro ⟨⟨rfl, _⟩, h, _⟩
          exact absurd rfl h
    · cases value with
      | nil => simp [closing?, h]
      | cons v vs =>
        simp only [closing?, h, if_false, Option.map_eq_some_iff, Prod.exists, Prod.mk.injEq,
          List.cons.injEq, List.cons_append, List.mem_cons, not_or]
        constructor
        · rintro ⟨a, b, hab, ⟨rfl, rfl⟩, rfl⟩
          obtain ⟨hr, hq⟩ := ih.1 hab
          exact ⟨⟨rfl, hr⟩, Ne.symm h, hq⟩
        · rintro ⟨⟨rfl, hr⟩, _, hq⟩
          exact ⟨vs, rest, ih.2 ⟨hr, hq⟩, ⟨rfl, rfl⟩, rfl⟩

theorem length_closing? {quote : Char} {cs value rest : List Char}
    (h : closing? quote cs = some (value, rest)) : rest.length < cs.length := by
  rw [(closing?_eq_some_iff.1 h).1]
  simp only [List.length_append, List.length_cons]
  omega

def isQuote (c : Char) : Bool :=
  c == '\'' || c == '"'

def quotedValue? : List Char → Option (List Char × List Char)
  | [] => none
  | c :: r => if isQuote c then closing? c r else none

def value? (cs : List Char) : Option (List Char × List Char) :=
  match quotedValue? cs with
  | some found => some found
  | none =>
    match cs.takeWhile isWordChar with
    | [] => none
    | word => some (word, cs.dropWhile isWordChar)

theorem length_quotedValue? {cs value rest : List Char}
    (h : quotedValue? cs = some (value, rest)) : rest.length < cs.length := by
  cases cs with
  | nil => simp [quotedValue?] at h
  | cons c r =>
    rw [quotedValue?] at h
    by_cases hq : isQuote c = true
    · rw [if_pos hq] at h
      have := length_closing? h
      simp only [List.length_cons]
      omega
    · rw [if_neg hq] at h
      cases h

theorem length_value? {cs value rest : List Char} (h : value? cs = some (value, rest)) :
    rest.length < cs.length := by
  unfold value? at h
  cases hq : quotedValue? cs with
  | some found =>
    rw [hq] at h
    cases h
    exact length_quotedValue? hq
  | none =>
    rw [hq] at h
    cases cs with
    | nil => simp at h
    | cons c r =>
      cases hc : isWordChar c with
      | false => simp [hc] at h
      | true =>
        simp only [List.takeWhile_cons, hc, if_true, List.dropWhile_cons, Option.some.injEq,
          Prod.mk.injEq] at h
        obtain ⟨_, rfl⟩ := h
        have := length_dropWhile_le isWordChar r
        simp only [List.length_cons]
        omega

def keyed? (cs : List Char) : Option (List Char × List Char × List Char) :=
  match cs.dropWhile isKeyChar with
  | '=' :: r =>
    match cs.takeWhile isKeyChar with
    | [] => none
    | key => (value? r).map fun (value, rest) => (key, value, rest)
  | _ => none

theorem length_keyed? {cs key value rest : List Char}
    (h : keyed? cs = some (key, value, rest)) : rest.length < cs.length := by
  have hle := length_dropWhile_le isKeyChar cs
  unfold keyed? at h
  split at h
  · next r hd =>
    rw [hd] at hle
    split at h
    · cases h
    · cases hv : value? r with
      | none => simp [hv] at h
      | some pair =>
        obtain ⟨v, s⟩ := pair
        simp only [hv, Option.map_some, Option.some.injEq, Prod.mk.injEq] at h
        obtain ⟨_, _, rfl⟩ := h
        have := length_value? hv
        simp only [List.length_cons] at hle
        omega
  · cases h

def token (key : Option (List Char)) (value : List Char) : Token :=
  ⟨key.map String.ofList, String.ofList (Text.Chars.trim value)⟩

def token? (cs : List Char) : Option (Token × List Char) :=
  match keyed? cs with
  | some (key, value, rest) => some (token (some key) value, rest)
  | none => (value? cs).map fun (value, rest) => (token none value, rest)

theorem length_token? {cs rest : List Char} {t : Token} (h : token? cs = some (t, rest)) :
    rest.length < cs.length := by
  unfold token? at h
  split at h
  · next key value tail hk =>
    simp only [Option.some.injEq, Prod.mk.injEq] at h
    obtain ⟨_, rfl⟩ := h
    exact length_keyed? hk
  · cases hv : value? cs with
    | none => simp [hv] at h
    | some pair =>
      obtain ⟨v, s⟩ := pair
      simp only [hv, Option.map_some, Option.some.injEq, Prod.mk.injEq] at h
      obtain ⟨_, rfl⟩ := h
      exact length_value? hv

/-- All tokens of a text; what starts none is passed over. -/
def scan (cs : List Char) : List Token :=
  match cs with
  | [] => []
  | c :: r =>
    match _h : token? (c :: r) with
    | some (t, rest) => t :: scan rest
    | none => scan r
termination_by cs.length
decreasing_by
  · exact length_token? _h
  · simp

def tokens (text : String) : List Token :=
  scan text.toList

end CommandLine

end Sluice
