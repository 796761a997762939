import Sluice.Proofs.CommandLine.Pipes
import Sluice.Proofs.CommandLine.Tokens

/-! Parts of a section. A part stays as it is when lines are put together and sections are told
apart, and its tokens are known; parts with spaces between them are a part again. -/

namespace Sluice.CommandLine

variable {m : Char} {ms cs ds key value word : List Char} {ts us : List Token}

structure Piece (m : Char) (ms : List Char) (cs : List Char) : Prop where
  ne_nil : cs ≠ []
  trimmed : Text.Chars.Trimmed cs
  dashless : startsDashes cs = false
  calm : Calm cs
  unbroken : Unbroken m ms true cs

structure Part (m : Char) (ms : List Char) (cs : List Char) (ts : List Token) : Prop
    extends Piece m ms cs where
  scans : Scans cs ts

theorem trimmed_append (hcs : cs ≠ []) (hds : ds ≠ [])
    (hhead : ∀ d ∈ cs.head?, Text.isBlank d = false)
    (hlast : ∀ d ∈ ds.getLast?, Text.isBlank d = false) (between : List Char) :
    Text.Chars.Trimmed (cs ++ between ++ ds) := by
  constructor
  · cases cs with
    | nil => exact absurd rfl hcs
    | cons c r => simpa using hhead
  · rwa [List.getLast?_append_of_ne_nil _ hds]

theorem Piece.append (marker : IsMarker m ms) (h : Piece m ms cs) (h' : Piece m ms ds) :
    Piece m ms (cs ++ ' ' :: ds) where
  ne_nil := by simp
  trimmed := by
    simpa using trimmed_append h.ne_nil h'.ne_nil h.trimmed.1 h'.trimmed.2 [' ']
  dashless := by
    rw [startsDashes_append (by decide)]
    exact h.dashless
  calm := calm_append (by decide) h.calm ⟨fun _ => h'.dashless, h'.calm⟩
  unbroken := h.unbroken.append_space marker h'.unbroken h'.trimmed.1

theorem Part.append (marker : IsMarker m ms) (h : Part m ms cs ts) (h' : Part m ms ds us) :
    Part m ms (cs ++ ' ' :: ds) (ts ++ us) where
  toPiece := h.toPiece.append marker h'.toPiece
  scans := h.scans.append (by decide) h'.scans

theorem part_intercalate (marker : IsMarker m ms) {parts : List (List Char × List Token)}
    (hne : parts ≠ []) (h : ∀ e ∈ parts, Part m ms e.1 e.2) :
    Part m ms ([' '].intercalate (parts.map Prod.fst)) (parts.flatMap Prod.snd) := by
  induction parts with
  | nil => exact absurd rfl hne
  | cons e r ih =>
    have he := h e (by simp)
    cases r with
    | nil => simpa using he
    | cons f s =>
      have := he.append marker (ih (by simp) fun g hg => h g (by simp [hg]))
      simpa using this

structure IsKey (key : List Char) : Prop where
  ne_nil : key ≠ []
  plain : ∀ d ∈ key, isKeyChar d = true
  dashless : startsDashes key = false

theorem IsKey.nonblank (h : IsKey key) : ∀ d ∈ key, Text.isBlank d = false := fun d hd =>
  nonblank_of_isKeyChar (h.plain d hd)

theorem IsKey.trimmed (h : IsKey key) (hv : value ≠ [])
    (hlast : ∀ d ∈ value.getLast?, Text.isBlank d = false) :
    Text.Chars.Trimmed (key ++ '=' :: value) := by
  have hkey : ∀ d ∈ key.head?, Text.isBlank d = false := fun d hd =>
    h.nonblank d (List.mem_of_mem_head? hd)
  simpa using trimmed_append h.ne_nil hv hkey hlast ['=']

theorem IsKey.calm (h : IsKey key) (hv : Calm value) : Calm (key ++ '=' :: value) :=
  calm_append (by decide) (calm_of_nonblank h.nonblank)
    ⟨fun hb => absurd hb (by decide), hv⟩

theorem IsKey.unbroken (marker : IsMarker m ms) (h : IsKey key)
    (hv : Unbroken m ms false value) : Unbroken m ms true (key ++ '=' :: value) := by
  have heq : Text.isBlank '=' = false := by decide
  have hline : afterLineEnd? ('=' :: value) = none :=
    afterLineEnd?_nonblank (by simp [heq])
  unfold Unbroken at hv ⊢
  rw [unbreak_word_append marker.equals hline h.nonblank (.inr heq), heq, hv]

theorem part_plain (marker : IsMarker m ms) (h : IsKey key) (hv : value ≠ [])
    (hb : ∀ d ∈ value, Text.isBlank d = false) (hq : ∀ d ∈ value.head?, isQuote d = false) :
    Part m ms (key ++ '=' :: value) [token (some key) value] where
  ne_nil := by simp
  trimmed := h.trimmed hv fun d hd => hb d (List.mem_of_getLast? hd)
  dashless := by
    rw [startsDashes_append (by decide)]
    exact h.dashless
  calm := h.calm (calm_of_nonblank hb)
  unbroken := h.unbroken marker (unbroken_word (marker.blank m (by simp)) marker.space hb)
  scans := scans_plain h.ne_nil h.plain hv hb hq

theorem IsKey.unbroken_quoted (marker : IsMarker m ms) (h : IsKey key)
    (hv : Unbroken m ms false value) :
    Unbroken m ms true (key ++ '=' :: ('"' :: value ++ ['"'])) := by
  have hblank : Text.isBlank '"' = false := by decide
  have hm : m ≠ '"' := fun h => marker.quote (h ▸ List.mem_cons_self)
  refine h.unbroken marker ?_
  unfold Unbroken at hv ⊢
  rw [List.cons_append, unbreak_skip hm, hblank,
    unbreak_append (marker.blank m (by simp)) marker.quote rfl false value (.inr hv), hv,
    unbreak_nil]

theorem part_quoted (h : IsKey key) (hq : '"' ∉ value) (hcalm : Calm value)
    (hwhole : Unbroken m ms true (key ++ '=' :: ('"' :: value ++ ['"']))) :
    Part m ms (key ++ '=' :: ('"' :: value ++ ['"'])) [token (some key) value] where
  ne_nil := by simp
  trimmed := by
    refine h.trimmed (by simp) fun d hd => ?_
    rw [List.getLast?_append_of_ne_nil _ (by simp)] at hd
    simp only [List.getLast?_singleton, Option.mem_some_iff] at hd
    subst hd
    decide
  dashless := by
    rw [startsDashes_append (by decide)]
    exact h.dashless
  calm := by
    have hend : Calm ['"'] := ⟨fun hb => absurd hb (by decide), trivial⟩
    exact h.calm ⟨fun hb => absurd hb (by decide), calm_append (by decide) hcalm hend⟩
  unbroken := hwhole
  scans := scans_quoted h.ne_nil h.plain (by decide) hq

theorem toString_nonblank (n : Nat) : ∀ d ∈ (toString n).toList, Text.isBlank d = false := by
  rw [Nat.toString_eq_repr, Nat.toList_repr]
  exact fun d hd => Text.isBlank_of_mem_toDigits hd

theorem toString_ne_nil (n : Nat) : (toString n).toList ≠ [] := by
  rw [Nat.toString_eq_repr, Nat.toList_repr]
  exact Nat.toDigits_ne_nil

theorem toString_isDigit (n : Nat) : ∀ d ∈ (toString n).toList, Text.isDigit d = true := by
  rw [Nat.toString_eq_repr, Nat.toList_repr]
  exact fun d hd => Text.isDigit_of_mem_toDigits hd

theorem not_quote_of_isDigit {d : Char} (h : Text.isDigit d = true) : isQuote d = false := by
  rw [Bool.eq_false_iff]
  intro hq
  simp only [isQuote, Bool.or_eq_true, beq_iff_eq] at hq
  rcases hq with rfl | rfl <;> exact absurd h (by decide)

theorem toString_isKeyChar (n : Nat) : ∀ d ∈ (toString n).toList, isKeyChar d = true := by
  intro d hd
  have hne : d ≠ '=' := by
    rintro rfl
    exact absurd (toString_isDigit n _ hd) (by decide)
  simp [isKeyChar, isWordChar, hne, toString_nonblank n d hd]

theorem isKey_pipeKeyOf (side : Side) (slot : Nat) : IsKey (pipeKeyOf side slot).toList := by
  have hdigits := toString_isKeyChar slot
  cases side with
  | input =>
    have : (pipeKeyOf .input slot).toList = "inPipe.".toList ++ (toString slot).toList := by
      simp [pipeKeyOf]
    rw [this]
    refine ⟨by simp, fun d hd => ?_, rfl⟩
    rcases List.mem_append.1 hd with hd | hd
    · exact (by decide : ∀ d ∈ "inPipe.".toList, isKeyChar d = true) d hd
    · exact hdigits d hd
  | output =>
    have : (pipeKeyOf .output slot).toList = "outPipe.".toList ++ (toString slot).toList := by
      simp [pipeKeyOf]
    rw [this]
    refine ⟨by simp, fun d hd => ?_, rfl⟩
    rcases List.mem_append.1 hd with hd | hd
    · exact (by decide : ∀ d ∈ "outPipe.".toList, isKeyChar d = true) d hd
    · exact hdigits d hd

def pipeToken (side : Side) (pipe : Nat × Nat) : Token :=
  ⟨some (pipeKeyOf side pipe.1), toString pipe.2⟩

theorem part_pipe (marker : IsMarker m ms) (side : Side) (pipe : Nat × Nat) :
    Part m ms ((pipeKeyOf side pipe.1).toList ++ '=' :: (toString pipe.2).toList)
      [pipeToken side pipe] := by
  have := part_plain marker (isKey_pipeKeyOf side pipe.1) (toString_ne_nil pipe.2)
    (toString_nonblank pipe.2) fun d hd =>
      not_quote_of_isDigit (toString_isDigit pipe.2 d (List.mem_of_mem_head? hd))
  rwa [token, Option.map_some, String.ofList_toList,
    Text.Chars.trim_eq_self (trimmed_of_nonblank (toString_nonblank pipe.2)),
    String.ofList_toList] at this

theorem part_number (marker : IsMarker m ms) (n : Nat) :
    Part m ms (toString n).toList [⟨none, toString n⟩] where
  ne_nil := toString_ne_nil n
  trimmed := trimmed_of_nonblank (toString_nonblank n)
  dashless := by
    have hd := toString_isDigit n
    have hne := toString_ne_nil n
    cases h : (toString n).toList with
    | nil => rfl
    | cons d ds =>
      refine startsDashes_of_ne ?_ ds
      rintro rfl
      exact absurd (hd '-' (h ▸ List.mem_cons_self)) (by decide)
  calm := calm_of_nonblank (toString_nonblank n)
  unbroken := by
    have hd := toString_isDigit n
    have hb := toString_nonblank n
    cases h : (toString n).toList with
    | nil => exact unbreak_nil
    | cons d ds =>
      rw [h] at hd hb
      have hm : m ≠ d := by
        rintro rfl
        have := hd m (by simp)
        rw [marker.digit] at this
        cases this
      have hds := unbroken_word (marker.blank m (by simp)) marker.space
        (fun e he => hb e (List.mem_cons_of_mem d he))
      unfold Unbroken at hds ⊢
      rw [unbreak_skip hm, hb d (by simp), hds]
  scans := by
    have := scans_bare (toString_ne_nil n) (toString_isKeyChar n) fun d hd =>
      not_quote_of_isDigit (toString_isDigit n d (List.mem_of_mem_head? hd))
    rwa [token, Text.Chars.trim_eq_self (trimmed_of_nonblank (toString_nonblank n)),
      String.ofList_toList] at this

end Sluice.CommandLine
