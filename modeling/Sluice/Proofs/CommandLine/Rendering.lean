import Mathlib.Data.List.Forall2
import Sluice.Proofs.CommandLine.Joined
import Sluice.Proofs.CommandLine.Tokens

/-! Tokens written down. However values are quoted and whatever blanks stand between them, the
tokens are read back; only a value in quotes without a key is taken apart where it looks like a key
with a value. -/

namespace Sluice.CommandLine

variable {c q : Char} {cs gap part text key value word rest : List Char} {t : Token}
  {ts : List Token} {parts before after : List (List Char)}

structure Unquoted (word : List Char) : Prop where
  ne_nil : word ≠ []
  nonblank : ∀ c ∈ word, Text.isBlank c = false
  no_quote : ∀ c ∈ word.head?, isQuote c = false

structure Opens (key : List Char) : Prop where
  ne_nil : key ≠ []
  plain : ∀ c ∈ key, isKeyChar c = true

/-- The ways to write a token: a value after its key, in quotes that it does not hold or as a word,
or a word without a key. -/
inductive Renders : Token → List Char → Prop
  | quoted {q : Char} {key value : List Char} : isQuote q = true → Opens key →
    Text.Chars.Trimmed value → q ∉ value →
    Renders ⟨some (String.ofList key), String.ofList value⟩ (key ++ '=' :: (q :: value ++ [q]))
  | plain {key value : List Char} : Opens key → Unquoted value →
    Renders ⟨some (String.ofList key), String.ofList value⟩ (key ++ '=' :: value)
  | bare {word : List Char} : Unquoted word → '=' ∉ word → Renders ⟨none, String.ofList word⟩ word

def bare (word : List Char) : Token :=
  ⟨none, String.ofList word⟩

/-- The value starts like a key with a value: an equals sign stands in its first word, and no blank
comes after the first such sign. -/
def LooksKeyed (value : List Char) : Prop :=
  ∃ name rest, value = name ++ '=' :: rest ∧ (∀ c ∈ name, isKeyChar c = true) ∧
    ∀ c ∈ rest.head?, Text.isBlank c = false

theorem Blanks.ends (h : Blanks gap) (cs : List Char) : Ends (gap ++ cs) := by
  obtain ⟨c, r, rfl⟩ := List.exists_cons_of_ne_nil h.ne_nil
  exact ends_cons (h.blank c List.mem_cons_self) _

theorem scan_blanks (h : ∀ c ∈ gap, Text.isBlank c = true) (cs : List Char) :
    scan (gap ++ cs) = scan cs := by
  induction gap with
  | nil => rfl
  | cons c r ih =>
    obtain ⟨hc, hr⟩ := List.forall_mem_cons.1 h
    rw [List.cons_append, scan_blank hc, ih hr]

theorem scan_before (h : List.Forall₂ (fun t part => Scans part [t]) ts before)
    (joined : Joined Blanks (before ++ part :: after) text) :
    ∃ tail, Joined Blanks (part :: after) tail ∧ scan text = ts ++ scan tail := by
  induction h generalizing text with
  | nil => exact ⟨text, joined, rfl⟩
  | cons first _ ih =>
    obtain ⟨_, rfl, ⟨_, none⟩ | ⟨gap, more, rfl, blanks, joined⟩⟩ := joined.exists_rest
    · simp at none
    · obtain ⟨tail, htail, same⟩ := ih joined
      refine ⟨tail, htail, ?_⟩
      rw [first _ (blanks.ends _), scan_blanks blanks.blank, same]
      rfl

theorem scan_joined (h : List.Forall₂ (fun t part => Scans part [t]) ts parts)
    (joined : Joined Blanks parts text) : scan text = ts := by
  induction joined generalizing ts with
  | nil =>
    cases h
    rw [scan]
  | single part =>
    cases h with
    | cons first none =>
      cases none
      exact first.scan_eq
  | cons part blanks _ ih =>
    cases h with
    | cons first rest =>
      rw [List.append_assoc, first _ (blanks.ends _), scan_blanks blanks.blank, ih rest]
      rfl

theorem Unquoted.scans (h : Unquoted word) (plain : '=' ∉ word) : Scans word [bare word] := by
  have same : token none word = bare word :=
    token_of_trimmed (trimmed_of_nonblank h.nonblank) none
  have keyless : ∀ c ∈ word, isKeyChar c = true := fun c hc => by
    have hne : c ≠ '=' := fun heq => plain (heq ▸ hc)
    simp [isKeyChar, isWordChar, hne, h.nonblank c hc]
  exact same ▸ scans_bare h.ne_nil keyless h.no_quote

theorem Renders.scans (h : Renders t cs) : Scans cs [t] := by
  cases h with
  | quoted hq opens trimmed unquoted =>
    exact token_of_trimmed trimmed (some _) ▸ scans_quoted opens.ne_nil opens.plain hq unquoted
  | plain opens word =>
    have same := token_of_trimmed (trimmed_of_nonblank word.nonblank)
    exact same (some _) ▸
      scans_plain opens.ne_nil opens.plain word.ne_nil word.nonblank word.no_quote
  | bare word plain => exact word.scans plain

/-- Tokens that are written one after the other, with blanks between them, are read back. -/
theorem tokens_of_renders {text : String} (h : List.Forall₂ Renders ts parts)
    (joined : Joined Blanks parts text.toList) : tokens text = ts :=
  scan_joined (h.imp fun _ _ => Renders.scans) joined

theorem looksKeyed_iff : LooksKeyed value ↔ (value.dropWhile isKeyChar).head? = some '=' ∧
    ∀ c ∈ (value.dropWhile isKeyChar).tail.head?, Text.isBlank c = false := by
  constructor
  · rintro ⟨name, rest, rfl, hname, hrest⟩
    rw [List.dropWhile_append_of_pos hname]
    exact ⟨rfl, hrest⟩
  · rintro ⟨hhead, hrest⟩
    obtain ⟨rest, hdrop⟩ := List.head?_eq_some_iff.1 hhead
    rw [hdrop, List.tail_cons] at hrest
    refine ⟨value.takeWhile isKeyChar, rest, ?_, fun c hc => List.mem_takeWhile_imp hc, hrest⟩
    rw [← hdrop, List.takeWhile_append_dropWhile]

instance (value : List Char) : Decidable (LooksKeyed value) :=
  decidable_of_iff' _ looksKeyed_iff

theorem isKeyChar_of_isQuote (h : isQuote q = true) : isKeyChar q = true := by
  simp only [isQuote, Bool.or_eq_true, beq_iff_eq] at h
  obtain rfl | rfl := h <;> decide

theorem value?_of_head (hne : cs ≠ []) (h : ∀ c ∈ cs.head?, Text.isBlank c = false) :
    ∃ value rest, value? cs = some (value, rest) := by
  obtain ⟨c, r, rfl⟩ := List.exists_cons_of_ne_nil hne
  have hc : isWordChar c = true := by simp [isWordChar, h c rfl]
  unfold value?
  cases quotedValue? (c :: r) with
  | some found => exact ⟨found.1, found.2, rfl⟩
  | none => simp [hc]

theorem keyed?_of_looksKeyed (hq : isQuote q = true) (h : LooksKeyed value) (rest : List Char) :
    ∃ found, keyed? (q :: value ++ q :: rest) = some found := by
  obtain ⟨name, tail, rfl, hname, htail⟩ := h
  have hquote := isKeyChar_of_isQuote hq
  have hhead : ∀ c ∈ (tail ++ q :: rest).head?, Text.isBlank c = false := by
    cases tail with
    | nil => simpa using nonblank_of_isKeyChar hquote
    | cons d ds => exact htail
  obtain ⟨v, r, found⟩ := value?_of_head (by simp) hhead
  have hkey : ∀ c ∈ q :: name, isKeyChar c = true := List.forall_mem_cons.2 ⟨hquote, hname⟩
  have keyed := keyed?_value (List.cons_ne_nil q name) hkey found
  exact ⟨_, by simpa using keyed⟩

theorem keyed?_of_not_looksKeyed (hq : isQuote q = true) (h : ¬LooksKeyed value)
    (ends : Ends rest) : keyed? (q :: value ++ q :: rest) = none := by
  have hquote := isKeyChar_of_isQuote hq
  rw [looksKeyed_iff] at h
  have htake : ∀ c ∈ value.takeWhile isKeyChar, isKeyChar c = true := fun c hc =>
    List.mem_takeWhile_imp hc
  have hvalue := List.takeWhile_append_dropWhile (p := isKeyChar) (l := value)
  have hstop := Text.Chars.head?_dropWhile isKeyChar value
  cases hdrop : value.dropWhile isKeyChar with
  | nil =>
    -- the whole value and both quotes are one run of characters of a key
    rw [hdrop, List.append_nil] at hvalue
    have hword : ∀ c ∈ q :: value ++ [q], isKeyChar c = true := by
      simpa [or_imp, forall_and, hquote, hvalue] using htake
    simpa using keyed?_bare hword ends
  | cons c r =>
    rw [hdrop] at h hvalue hstop
    have hopen : ∀ d ∈ q :: value.takeWhile isKeyChar, isKeyChar d = true :=
      List.forall_mem_cons.2 ⟨hquote, htake⟩
    by_cases hc : c = '='
    · subst hc
      -- a blank comes after the equals sign, so that there is no value for a key
      have hblank : Ends (r ++ q :: rest) := by
        cases r with
        | nil => simp at h
        | cons d ds => simpa [Ends] using h
      have := keyed?_opens (List.cons_ne_nil _ _) hopen (r ++ q :: rest)
      rw [value?_ends hblank] at this
      rw [← hvalue]
      simpa using this
    · have hblank : Text.isBlank c = true := by
        simpa [isKeyChar, isWordChar, hc] using hstop
      have := keyed?_bare hopen (ends_cons hblank (r ++ q :: rest))
      rw [← hvalue]
      simpa using this

theorem scan_quoted_iff (hq : isQuote q = true) (hv : q ∉ value) (ends : Ends rest) :
    scan (q :: value ++ q :: rest) = token none value :: scan rest ↔ ¬LooksKeyed value := by
  by_cases keyed : LooksKeyed value
  · obtain ⟨⟨key, v, r⟩, found⟩ := keyed?_of_looksKeyed hq keyed rest
    have first : token? (q :: value ++ q :: rest) = some (token (some key) v, r) := by
      rw [token?, found]
    refine iff_of_false (fun same => ?_) (not_not_intro keyed)
    have same := (scan_token first).symm.trans same
    simp [token] at same
  · have first : token? (q :: value ++ q :: rest) = some (token none value, rest) := by
      rw [token?, keyed?_of_not_looksKeyed hq keyed ends, value?_quoted hq hv rest]
      rfl
    exact iff_of_true (scan_token first) keyed

/-- A value in quotes among words is read as it stands, without the blanks around it, exactly if it
does not look keyed. -/
theorem tokens_quoted_iff (hq : isQuote q = true) (hv : q ∉ value)
    (words : ∀ w ∈ before ++ after, Unquoted w ∧ '=' ∉ w) {text : String}
    (joined : Joined Blanks (before ++ (q :: value ++ [q]) :: after) text.toList) :
    tokens text = before.map bare ++ ⟨none, String.ofList (Text.Chars.trim value)⟩ ::
      after.map bare ↔ ¬LooksKeyed value := by
  obtain ⟨first, last⟩ := List.forall_mem_append.1 words
  have scans {ws : List (List Char)} (h : ∀ w ∈ ws, Unquoted w ∧ '=' ∉ w) :
      List.Forall₂ (fun t part => Scans part [t]) (ws.map bare) ws := by
    rw [List.forall₂_map_left_iff, List.forall₂_same]
    exact fun w hw => (h w hw).1.scans (h w hw).2
  obtain ⟨tail, item, same⟩ := scan_before (scans first) joined
  obtain ⟨rest, rfl, hrest⟩ := item.exists_rest
  have others : Ends rest ∧ scan rest = after.map bare := by
    obtain ⟨rfl, rfl⟩ | ⟨gap, more, rfl, blanks, joined⟩ := hrest
    · exact ⟨ends_nil, by rw [scan]; rfl⟩
    · exact ⟨blanks.ends more,
        (scan_blanks blanks.blank more).trans (scan_joined (scans last) joined)⟩
  rw [tokens, same, List.append_cancel_left_eq, ← others.2, List.append_assoc]
  exact scan_quoted_iff hq hv others.1

def mixedTokens : List Token :=
  [⟨some "file", "a = \"b\" c"⟩, ⟨some "'a", "b'"⟩, ⟨none, "x\"y'"⟩, ⟨some "k", ""⟩]

def mixedText : String :=
  "file='a = \"b\" c'\t 'a=b'\nx\"y' k=\"\""

def mixedParts : List (List Char) :=
  ["file='a = \"b\" c'".toList, "'a=b'".toList, "x\"y'".toList, "k=\"\"".toList]

theorem mixed_joined : Joined Blanks mixedParts mixedText.toList := by
  have tab : Blanks "\t ".toList := ⟨by decide, by decide⟩
  have line : Blanks "\n".toList := ⟨by decide, by decide⟩
  have space : Blanks " ".toList := ⟨by decide, by decide⟩
  exact .cons _ tab (.cons _ line (.cons _ space (.single _)))

theorem mixed_renders : List.Forall₂ Renders mixedTokens mixedParts := by
  refine .cons ?_ (.cons ?_ (.cons ?_ (.cons ?_ .nil)))
  · exact @Renders.quoted '\'' "file".toList "a = \"b\" c".toList (by decide)
      ⟨by decide, by decide⟩ ⟨by decide, by decide⟩ (by decide)
  · exact @Renders.plain "'a".toList "b'".toList ⟨by decide, by decide⟩
      ⟨by decide, by decide, by decide⟩
  · exact @Renders.bare "x\"y'".toList ⟨by decide, by decide, by decide⟩ (by decide)
  · exact @Renders.quoted '"' "k".toList [] (by decide) ⟨by decide, by decide⟩
      ⟨by decide, by decide⟩ (by decide)

theorem mixed_read : List.Forall₂ Renders mixedTokens mixedParts ∧
    Joined Blanks mixedParts mixedText.toList ∧
    tokens mixedText = mixedTokens :=
  ⟨mixed_renders, mixed_joined, tokens_of_renders mixed_renders mixed_joined⟩

theorem spaced_joined : Joined Blanks (["x".toList] ++ ('\'' :: "a= \"b ".toList ++ ['\'']) ::
    ["-y".toList]) "x 'a= \"b '\n-y".toList := by
  have space : Blanks " ".toList := ⟨by decide, by decide⟩
  have line : Blanks "\n".toList := ⟨by decide, by decide⟩
  exact .cons _ space (.cons _ line (.single _))

theorem spaced_words : ∀ w ∈ ["x".toList] ++ ["-y".toList], Unquoted w ∧ '=' ∉ w := by
  intro w hw
  obtain rfl | rfl := List.mem_pair.1 hw <;>
    exact ⟨⟨by decide, by decide, by decide⟩, by decide⟩

theorem spaced_whole : isQuote '\'' = true ∧ '\'' ∉ "a= \"b ".toList ∧
    (∀ w ∈ ["x".toList] ++ ["-y".toList], Unquoted w ∧ '=' ∉ w) ∧
    Joined Blanks (["x".toList] ++ ('\'' :: "a= \"b ".toList ++ ['\'']) :: ["-y".toList])
      "x 'a= \"b '\n-y".toList ∧
    ¬LooksKeyed "a= \"b ".toList ∧
    tokens "x 'a= \"b '\n-y" = [⟨none, "x"⟩, ⟨none, "a= \"b"⟩, ⟨none, "-y"⟩] := by
  have whole : ¬LooksKeyed "a= \"b ".toList := by decide
  refine ⟨rfl, by decide, spaced_words, spaced_joined, whole, ?_⟩
  exact (tokens_quoted_iff rfl (by decide) spaced_words spaced_joined).2 whole

theorem equals_sign_cuts : isQuote '\'' = true ∧ '\'' ∉ "a=b".toList ∧
    tokens "'a=b'" = [⟨some "'a", "b'"⟩] ∧ tokens "'a=b'" ≠ [⟨none, "a=b"⟩] := by
  have cut : tokens "'a=b'" = [⟨some "'a", "b'"⟩] := by
    cbv
  exact ⟨rfl, by decide, cut, by rw [cut]; decide⟩

end Sluice.CommandLine
