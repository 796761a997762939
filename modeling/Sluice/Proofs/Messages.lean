import Mathlib.Data.List.Basic
import Sluice.Messages
import Sluice.Proofs.Steps

/-! The wordings of messages. A wording whose fields only number details can be filled whatever the
details are, unless there are too few of them; then it is shown as it is. All English wordings are
of this kind, so that there always is a message. -/

namespace Sluice

namespace Wording

variable {d : Char} {r cs : List Char} {args : List Document} {numbering : Numbering}

def isSimple : List Char → Bool
  | [] => true
  | '\x7b' :: d :: '\x7d' :: r => Text.isDigit d && isSimple r
  | c :: r => c != '\x7b' && c != '\x7d' && isSimple r

theorem ne_of_isDigit {c : Char} (h : Text.isDigit d = true) (hc : Text.isDigit c = false) :
    d ≠ c := by
  rintro rfl
  rw [h] at hc
  cases hc

theorem digit?_lt {n : Nat} (h : Text.digit? d = some n) : n < 10 := by
  obtain ⟨z, hz, rfl⟩ := Option.map_eq_some_iff.1 h
  have := List.find?_some hz
  simp only [Bool.and_eq_true, decide_eq_true_eq] at this
  omega

theorem number?_digit (h : Text.isDigit d = true) : ∃ n, number? [d] = .ok (some n) := by
  obtain ⟨n, hn⟩ := Option.isSome_iff_exists.1 h
  have small : ¬largest < n := by
    have := digit?_lt hn
    have : 10 ≤ largest := by decide
    omega
  refine ⟨n, ?_⟩
  simp [number?, Text.digitsValue?, h, hn, small]

theorem field_digit (h : Text.isDigit d = true) (r : List Char) :
    field (d :: '\x7d' :: r) = .ok (⟨[d], none, []⟩, r) := by
  have h1 : d ≠ '\x7b' := ne_of_isDigit h (by decide)
  have h2 : d ≠ '\x7d' := ne_of_isDigit h (by decide)
  have h3 : d ≠ ':' := ne_of_isDigit h (by decide)
  have h4 : d ≠ '!' := ne_of_isDigit h (by decide)
  have h5 : d ≠ '[' := ne_of_isDigit h (by decide)
  simp [field, fieldName, h1, h2, h3, h4, h5]

theorem fillField_digit (h : Text.isDigit d = true) (unset : ∀ n, numbering ≠ .counted n)
    (fuel depth : Nat) (args : List Document) :
    ∃ n, fillField (fuel + 1) depth args numbering ⟨[d], none, []⟩ =
      (fun a => (a.shown.toList, .given)) <$> detail args n := by
  have h1 : d ≠ '.' := ne_of_isDigit h (by decide)
  have h2 : d ≠ '[' := ne_of_isDigit h (by decide)
  obtain ⟨n, hn⟩ := number?_digit h
  have picked : pick args numbering [d] = (fun a => (a, .given)) <$> detail args n := by
    cases numbering with
    | counted k => exact absurd rfl (unset k)
    | unset => simp [pick, hn]
    | given => simp [pick, hn]
  refine ⟨n, ?_⟩
  have name : splitName [d] = ([d], []) := by simp [splitName, h1, h2]
  rw [fillField, name]
  simp only [picked]
  cases detail args n with
  | error e => rfl
  | ok a => rfl

theorem fillFrom_simple (simple : isSimple cs = true) {fuel depth : Nat} (h : cs.length < fuel)
    (deep : 0 < depth) (unset : ∀ n, numbering ≠ .counted n) :
    FailsBy (· = .tooFew) (fillFrom fuel depth args numbering cs) := by
  have shallow : depth ≠ 0 := Nat.ne_of_gt deep
  induction cs using isSimple.induct generalizing fuel numbering with
  | case1 =>
    obtain ⟨fuel, rfl⟩ := Nat.exists_eq_add_one_of_ne_zero (Nat.ne_zero_of_lt h)
    simp only [fillFrom, shallow, if_false]
    exact .ok _
  | case2 d r ih =>
    simp only [isSimple, Bool.and_eq_true] at simple
    obtain ⟨fuel, rfl⟩ : ∃ n, fuel = n + 2 := ⟨fuel - 2, by simp at h; omega⟩
    have hd : d ≠ '\x7b' := ne_of_isDigit simple.1 (by decide)
    obtain ⟨n, shown⟩ := fillField_digit simple.1 unset fuel depth args
    -- After a numbered field no field is counted: the rest is filled from `.given`.
    have more : FailsBy (· = .tooFew) (fillFrom (fuel + 1) depth args .given r) :=
      ih simple.2 (by simp at h; omega) fun _ => nofun
    have filled : fillFrom (fuel + 2) depth args numbering ('\x7b' :: d :: '\x7d' :: r) =
        detail args n >>= fun a => fillFrom (fuel + 1) depth args .given r >>= fun rest =>
          pure (a.shown.toList ++ rest.1, rest.2) := by
      simp [fillFrom, shallow, hd, field_digit simple.1, shown]
    rw [filled]
    refine .bind ?_ fun a _ => more.bind fun rest _ => .ok _
    unfold detail
    split
    · exact .ok _
    · exact .throws rfl
  | case3 c r other ih =>
    simp only [isSimple, Bool.and_eq_true, bne_iff_ne] at simple
    obtain ⟨fuel, rfl⟩ := Nat.exists_eq_add_one_of_ne_zero (Nat.ne_zero_of_lt h)
    have filled : fillFrom (fuel + 1) depth args numbering (c :: r) =
        fillFrom fuel depth args numbering r >>= fun rest => pure (c :: rest.1, rest.2) := by
      simp [fillFrom, shallow, simple]
    rw [filled]
    exact (ih simple.2 (Nat.lt_of_succ_lt_succ h) unset).bind fun rest _ => .ok _

theorem fill_simple {wording : String} (simple : isSimple wording.toList = true)
    (args : List Document) : FailsBy (· = .tooFew) (fill wording args) := by
  have filled : FailsBy (· = .tooFew)
      (fillFrom (2 * wording.toList.length + 2) 2 args .unset wording.toList) :=
    fillFrom_simple simple (by omega) (by decide) fun _ => nofun
  exact filled.bind fun _ _ => .ok _

end Wording

namespace Messages

variable {messages : Messages}

def Simple (messages : Messages) : Prop :=
  ∀ e ∈ messages, ∃ wording, e.2 = .text wording ∧ Wording.isSimple wording.toList = true

theorem english_simple : english.Simple := by
  have simple : ∀ e ∈ englishWordings, Wording.isSimple e.2.toList = true := by decide +kernel
  intro e he
  obtain ⟨⟨key, wording⟩, hmem, rfl⟩ := List.mem_map.1 he
  exact ⟨wording, rfl, simple _ hmem⟩

theorem Simple.exists_tell (h : messages.Simple) (key : String) (args : List Document) :
    ∃ message, messages.tell key args = .ok message := by
  unfold tell
  cases hkey : messages.lookup key with
  | none => exact ⟨_, rfl⟩
  | some found =>
    obtain ⟨wording, rfl, simple⟩ := h (key, found) (Table.mem_of_lookup hkey)
    simp only [Option.getD_some]
    cases hfill : Wording.fill wording args with
    | ok message => exact ⟨message, rfl⟩
    | error e =>
      obtain rfl := Wording.fill_simple simple args e hfill
      exact ⟨wording, rfl⟩

end Messages

end Sluice
