import Sluice.Proofs.CommandLine.Keys
import Sluice.Proofs.Text.LowerCase

/-! Where a text is cut for a value that takes the whole of it: before the first mention of a pipe,
which may stand inside a word or a value. A token that names a pipe starts with a mention, so that
the cut is never after the first of these tokens, and it is before it if a pipe is mentioned
earlier. -/

namespace Sluice.CommandLine

variable {c : Char} {cs rest : List Char} {t : Token} {k m n : Nat}

def Mention (cs : List Char) : Prop :=
  ∃ side word rest, IsWord (pipeWord side) word ∧ cs = word ++ rest

structure FirstMention (cs : List Char) (n : Nat) : Prop where
  inside : n ≤ cs.length
  none_before : ∀ k < n, ¬Mention (cs.drop k)
  stops : n = cs.length ∨ Mention (cs.drop n)

theorem FirstMention.le (h : FirstMention cs n) (stops : m = cs.length ∨ Mention (cs.drop m)) :
    n ≤ m := by
  rcases stops with rfl | mention
  · exact h.inside
  · exact Nat.le_of_not_lt fun before => h.none_before m before mention

theorem firstMention_beforePipe (cs : List Char) : FirstMention cs (beforePipe cs).length := by
  induction cs with
  | nil => exact ⟨Nat.le_refl _, fun k hk => absurd hk (Nat.not_lt_zero k), .inl rfl⟩
  | cons c r ih =>
    rw [beforePipe]
    split
    · rename_i found
      exact ⟨Nat.zero_le _, fun k hk => absurd hk (Nat.not_lt_zero k),
        .inr (startsPipe_iff.1 found)⟩
    · rename_i missed
      refine ⟨Nat.succ_le_succ ih.inside, fun k hk => ?_, ih.stops.imp_left (congrArg (· + 1))⟩
      cases k with
      | zero => exact fun mention => missed (startsPipe_iff.2 mention)
      | succ k => exact ih.none_before k (Nat.lt_of_succ_lt_succ hk)

theorem take_beforePipe (cs : List Char) : cs.take (beforePipe cs).length = beforePipe cs :=
  (List.prefix_iff_eq_take.1 (beforePipe_isPrefix cs)).symm

theorem isLetter_blank (h : Text.isBlank c = true) :
    ∀ side, ∀ w ∈ pipeWord side, isLetter w c = false := by
  have all (side : Side) : ∀ n ∈ Text.blanks, ∀ w ∈ pipeWord side,
      isLetter w (Char.ofNat n) = false := by cases side <;> decide
  intro side
  have := all side c.toNat (Text.mem_blanks.1 h)
  rwa [Char.ofNat_toNat] at this

theorem Mention.head (h : Mention cs) : ∃ c r, cs = c :: r ∧ Text.isBlank c = false := by
  obtain ⟨side, word, rest, hword, rfl⟩ := h
  obtain ⟨w, ws, hw⟩ : ∃ w ws, pipeWord side = w :: ws := by cases side <;> exact ⟨_, _, rfl⟩
  rw [IsWord, hw, List.forall₂_cons_left_iff] at hword
  obtain ⟨c, r, hc, _, rfl⟩ := hword
  refine ⟨c, r ++ rest, rfl, Bool.eq_false_iff.2 fun blank => ?_⟩
  rw [isLetter_blank blank side w (by simp [hw])] at hc
  cases hc

/-- The tokens of a text with the numbers of characters before them. -/
def placed (n : Nat) (cs : List Char) : List (Nat × Token) :=
  match cs with
  | [] => []
  | c :: r =>
    match _h : token? (c :: r) with
    | some (t, rest) => (n, t) :: placed (n + ((c :: r).length - rest.length)) rest
    | none => placed (n + 1) r
termination_by cs.length
decreasing_by
  · exact length_token? _h
  · simp

theorem placed_token {r : List Char} (h : token? (c :: r) = some (t, rest)) :
    placed n (c :: r) = (n, t) :: placed (n + ((c :: r).length - rest.length)) rest := by
  rw [placed]
  split
  · rename_i t' rest' h'
    rw [h, Option.some.injEq, Prod.mk.injEq] at h'
    rw [h'.1, h'.2]
  · rename_i h'
    rw [h] at h'
    cases h'

theorem placed_skip {r : List Char} (h : token? (c :: r) = none) :
    placed n (c :: r) = placed (n + 1) r := by
  rw [placed]
  split
  · rename_i t' rest' h'
    rw [h] at h'
    cases h'
  · rfl

theorem tokens_placed (n : Nat) (cs : List Char) : (placed n cs).map Prod.snd = scan cs := by
  induction cs using scan.induct generalizing n with
  | case1 => simp [placed, scan]
  | case2 c r t rest found ih => rw [placed_token found, scan_token found, List.map_cons, ih]
  | case3 c r skipped ih => rw [placed_skip skipped, scan_skip skipped, ih]

theorem token?_of_placed (h : (m, t) ∈ placed n cs) :
    ∃ k rest, m = n + k ∧ token? (cs.drop k) = some (t, rest) := by
  induction cs using scan.induct generalizing n with
  | case1 => simp [placed] at h
  | case2 c r u rest found ih =>
    rw [placed_token found, List.mem_cons] at h
    rcases h with heq | h
    · obtain ⟨rfl, rfl⟩ := Prod.mk.inj heq
      exact ⟨0, rest, rfl, found⟩
    · obtain ⟨k, tail, rfl, hk⟩ := ih h
      have suffix := (within_of_token? found).2
      rw [List.suffix_iff_eq_drop.1 suffix, List.drop_drop] at hk
      exact ⟨_, tail, by rw [Nat.add_assoc], hk⟩
  | case3 c r skipped ih =>
    rw [placed_skip skipped] at h
    obtain ⟨k, tail, rfl, hk⟩ := ih h
    exact ⟨k + 1, tail, by omega, hk⟩

def firstReference (cs : List Char) : Nat :=
  match (placed 0 cs).find? fun e => !Command.isParameter e.2 with
  | some e => e.1
  | none => cs.length

theorem key_isPrefix (h : token? cs = some (t, rest)) : ∀ key ∈ t.key, key.toList <+: cs := by
  unfold token? at h
  split at h
  · rename_i key value tail hkeyed
    obtain ⟨rfl, rfl⟩ := Prod.mk.inj (Option.some.inj h)
    intro key' hkey
    obtain rfl := Option.some.inj hkey
    rw [key_of_keyed? hkeyed, String.toList_ofList]
    exact List.takeWhile_prefix _
  · obtain ⟨_, _, heq⟩ := Option.map_eq_some_iff.1 h
    obtain ⟨rfl, _⟩ := Prod.mk.inj heq
    simp [token]

theorem mention_of_token? (h : token? cs = some (t, rest)) (names : Command.isParameter t = false) :
    Mention cs := by
  obtain ⟨found, hfound⟩ := Option.isSome_iff_exists.1
    (by simpa [Command.isParameter] using names : (t.key.bind pipeKey?).isSome = true)
  obtain ⟨key, hkey, hpipe⟩ := Option.bind_eq_some_iff.1 hfound
  obtain ⟨digits, hdigits, _⟩ := Option.bind_eq_some_iff.1 hpipe
  obtain ⟨more, rfl⟩ := key_isPrefix h key hkey
  exact startsPipe_iff.1 (startsPipe_append (startsPipe_of_slotDigits? hdigits) more)

theorem firstReference_stops (cs : List Char) :
    firstReference cs = cs.length ∨ Mention (cs.drop (firstReference cs)) := by
  unfold firstReference
  cases found : (placed 0 cs).find? fun e => !Command.isParameter e.2 with
  | none => exact .inl rfl
  | some e =>
    obtain ⟨k, rest, hk, htoken⟩ := token?_of_placed (List.mem_of_find?_eq_some found)
    have names : Command.isParameter e.2 = false := by simpa using List.find?_some found
    rw [Nat.zero_add] at hk
    subst hk
    exact .inr (mention_of_token? htoken names)

theorem firstReference_le (cs : List Char) : firstReference cs ≤ cs.length := by
  rcases firstReference_stops cs with h | h
  · exact h.le
  · obtain ⟨_, _, hdrop, _⟩ := h.head
    have := congrArg List.length hdrop
    rw [List.length_drop, List.length_cons] at this
    omega

theorem length_of_token? (h : token? (cs.drop k) = some (t, rest)) : k < cs.length := by
  have := length_token? h
  rw [List.length_drop] at this
  omega

theorem firstReference_eq_length_iff (cs : List Char) :
    firstReference cs = cs.length ↔ ∀ t ∈ scan cs, Command.isParameter t = true := by
  rw [← tokens_placed 0 cs, List.forall_mem_map]
  unfold firstReference
  cases found : (placed 0 cs).find? fun e => !Command.isParameter e.2 with
  | none => simpa using found
  | some e =>
    have hmem := List.mem_of_find?_eq_some found
    obtain ⟨k, rest, hk, htoken⟩ := token?_of_placed hmem
    have names : Command.isParameter e.2 = false := by simpa using List.find?_some found
    constructor
    · intro hend
      have := length_of_token? htoken
      dsimp only at hend
      omega
    · intro all
      rw [all e hmem] at names
      cases names

theorem isParameter_iff {t : Token} : Command.isParameter t = true ↔
    Command.pipe? .input t = none ∧ Command.pipe? .output t = none := by
  rw [pipe?_eq, pipe?_eq, Command.isParameter, Option.isNone_iff_eq_none]
  cases t.key.bind pipeKey? with
  | none => simp
  | some found =>
    obtain ⟨side, slot⟩ := found
    cases side <;> simp

theorem firstReference_ofParts (name body : List Char) :
    firstReference (Command.ofParts name body).text.toList =
        (Command.ofParts name body).text.toList.length ↔
      (Command.ofParts name body).inPipes = [] ∧ (Command.ofParts name body).outPipes = [] := by
  rw [firstReference_eq_length_iff, ← tokens, tokens_ofParts]
  simp only [Command.ofParts, List.filterMap_eq_nil_iff, isParameter_iff, forall_and]

def partBefore (cs : List Char) (n : Nat) : Option String :=
  let part := String.ofList (Text.Chars.trim (cs.take n))
  if part = "" then none else some part

theorem length_lt_trimEnd (hc : Text.isBlank c = false) (xs ys : List Char) :
    xs.length < (Text.Chars.trimEnd (xs ++ c :: ys)).length := by
  rw [Text.Chars.trimEnd, List.reverse_append, List.reverse_cons, List.append_assoc,
    List.length_reverse, List.dropWhile_append]
  split
  · simp [hc]
  · simp only [List.length_append, List.length_cons, List.length_reverse, List.length_nil]
    omega

theorem partBefore_inj (h : partBefore cs n = partBefore cs m) :
    Text.Chars.trim (cs.take n) = Text.Chars.trim (cs.take m) := by
  have same : String.ofList (Text.Chars.trim (cs.take n)) =
      String.ofList (Text.Chars.trim (cs.take m)) := by
    unfold partBefore at h
    dsimp only at h
    split at h
    · rename_i empty
      split at h
      · rename_i empty'
        rw [empty, empty']
      · cases h
    · split at h
      · cases h
      · exact Option.some.inj h
  simpa using congrArg String.toList same

theorem FirstMention.partBefore_eq_iff (h : FirstMention cs n) (trimmed : Text.Chars.Trimmed cs)
    (hnm : n ≤ m) (inside : m ≤ cs.length) : partBefore cs n = partBefore cs m ↔ n = m := by
  refine ⟨fun same => ?_, fun heq => heq ▸ rfl⟩
  by_contra hne
  obtain ⟨j, rfl⟩ : ∃ j, m = n + (j + 1) := ⟨m - n - 1, by omega⟩
  obtain ⟨c, r, hdrop, hc⟩ := (h.stops.resolve_left (by omega)).head
  have start (k : Nat) : Text.Chars.trimStart (cs.take k) = cs.take k := by
    refine Text.Chars.dropWhile_eq_self fun d hd => trimmed.1 d ?_
    rw [List.head?_take] at hd
    split at hd
    · cases hd
    · exact hd
  have short : (Text.Chars.trimEnd (cs.take n)).length ≤ n := by
    obtain ⟨blanks, heq⟩ := Text.Chars.trimEnd_eq (cs.take n)
    have := congrArg List.length heq
    simp at this
    omega
  have long := length_lt_trimEnd hc (cs.take n) (r.take j)
  have trims := partBefore_inj same
  rw [Text.Chars.trim, start, Text.Chars.trim, start, List.take_add, hdrop,
    List.take_succ_cons] at trims
  rw [← trims, List.length_take, Nat.min_eq_left h.inside] at long
  omega

end Sluice.CommandLine
