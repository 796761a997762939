import Mathlib.Data.List.Forall2
import Sluice.Proofs.CommandLine.Commands

/-! Keys that name pipes: the word for the pipes of a side in any case, a point and the digits of a
slot. Tokens are sorted by them, those of the inputs apart from those of the outputs; only a key
whose first letter passes for an `i` and is none goes to the wrong side. -/

namespace Sluice.CommandLine

variable {cs key word rest digits : List Char} {side : Side} {n : Nat} {t : Token}

def IsWord (word cs : List Char) : Prop :=
  List.Forall₂ (fun w c => isLetter w c = true) word cs

theorem afterWord?_eq_some_iff :
    afterWord? word cs = some rest ↔ ∃ head, IsWord word head ∧ cs = head ++ rest := by
  unfold IsWord
  induction word generalizing cs with
  | nil => simp [afterWord?]
  | cons w ws ih =>
    simp only [List.forall₂_cons_left_iff]
    cases cs with
    | nil => simp [afterWord?]
    | cons c r =>
      by_cases hc : isLetter w c = true
      · rw [afterWord?, if_pos hc, ih]
        constructor
        · rintro ⟨head, hhead, rfl⟩
          exact ⟨c :: head, ⟨c, head, hc, hhead, rfl⟩, rfl⟩
        · rintro ⟨_, ⟨d, head, _, hhead, rfl⟩, heq⟩
          exact ⟨head, hhead, (List.cons.inj heq).2⟩
      · rw [afterWord?, if_neg hc]
        constructor
        · rintro ⟨⟩
        · rintro ⟨_, ⟨d, head, hd, _, rfl⟩, heq⟩
          obtain rfl : c = d := (List.cons.inj heq).1
          exact absurd hd hc

theorem afterWord?_word_append (word more cs : List Char) :
    afterWord? (word ++ more) cs = (afterWord? word cs).bind (afterWord? more) := by
  induction word generalizing cs with
  | nil => rfl
  | cons w ws ih =>
    cases cs with
    | nil => rfl
    | cons c r =>
      by_cases hc : isLetter w c = true
      · simp [afterWord?, hc, ih]
      · simp [afterWord?, hc]

def pipeWord (side : Side) : List Char :=
  side.name.toList ++ "pipe".toList

/-- The text starts with a letter that passes for an `i` and is another one: a dotted capital or a
dotless small one. -/
def startsOddly : List Char → Bool
  | [] => false
  | c :: _ => c == 'İ' || c == 'ı'

def takenFor (written : Side) (key : List Char) : Side :=
  if startsOddly key then .output else written

theorem startsOddly_of_out (h : afterWord? "out".toList cs = some rest) :
    startsOddly cs = false := by
  cases cs with
  | nil => rfl
  | cons c r =>
    rw [Bool.eq_false_iff]
    intro odd
    simp only [startsOddly, Bool.or_eq_true, beq_iff_eq] at odd
    have letter : isLetter 'o' c = false := by
      rcases odd with rfl | rfl <;> decide
    have : "out".toList = ['o', 'u', 't'] := rfl
    simp [this, afterWord?, letter] at h

theorem lower_eq_in (h : afterWord? "in".toList cs = some rest) :
    (cs.take 2).map Char.toLower = "in".toList ↔ startsOddly cs = false := by
  obtain ⟨head, hhead, rfl⟩ := afterWord?_eq_some_iff.1 h
  have : "in".toList = ['i', 'n'] := rfl
  simp only [this, IsWord, List.forall₂_cons_left_iff, List.forall₂_nil_left_iff] at hhead
  obtain ⟨i, _, hi, ⟨n, _, hn, rfl, rfl⟩, rfl⟩ := hhead
  have hn : n.toLower = 'n' := by simpa [isLetter] using hn
  have hodd : startsOddly (i :: n :: rest) = true → i.toLower ≠ 'i' := by
    intro odd
    simp only [startsOddly, Bool.or_eq_true, beq_iff_eq] at odd
    rcases odd with rfl | rfl <;> decide
  have hplain : startsOddly (i :: n :: rest) = false → i.toLower = 'i' := by
    intro plain
    simp only [startsOddly] at plain
    simpa [isLetter, plain] using hi
  simp only [this, List.cons_append, List.nil_append, List.take_succ_cons, List.take_zero,
    List.map_cons, List.map_nil, hn, List.cons.injEq, and_true]
  cases hs : startsOddly (i :: n :: rest) with
  | true => simp [hodd hs]
  | false => simp [hplain hs]

theorem side?_eq_some_iff : side? cs = some (side, rest) ↔
    ∃ written, afterWord? written.name.toList cs = some rest ∧ side = takenFor written cs := by
  unfold side?
  cases hin : afterWord? "in".toList cs with
  | some r =>
    have hside : (if (cs.take 2).map Char.toLower = "in".toList then Side.input else .output) =
        takenFor .input cs := by
      rw [takenFor, if_congr (lower_eq_in hin) rfl rfl]
      cases startsOddly cs <;> rfl
    simp only [hside, Option.some.injEq, Prod.mk.injEq]
    constructor
    · rintro ⟨rfl, rfl⟩
      exact ⟨.input, hin, rfl⟩
    · rintro ⟨written, hword, rfl⟩
      cases written with
      | input => exact ⟨rfl, Option.some.inj (hin.symm.trans hword)⟩
      | output =>
        rw [afterWord?_in_out hword] at hin
        cases hin
  | none =>
    simp only [Option.map_eq_some_iff, Prod.mk.injEq]
    constructor
    · rintro ⟨r, hout, rfl, rfl⟩
      exact ⟨.output, hout, by rw [takenFor, startsOddly_of_out hout]; rfl⟩
    · rintro ⟨written, hword, rfl⟩
      cases written with
      | input =>
        rw [Side.name, hin] at hword
        cases hword
      | output => exact ⟨rest, hword, by rw [takenFor, startsOddly_of_out hword]; rfl, rfl⟩

theorem afterPipe_iff : (∃ r, side? cs = some (side, r) ∧ afterWord? "pipe".toList r = some rest) ↔
    ∃ written word, IsWord (pipeWord written) word ∧ cs = word ++ rest ∧
      side = takenFor written cs := by
  simp only [side?_eq_some_iff]
  constructor
  · rintro ⟨r, ⟨written, hside, rfl⟩, hpipe⟩
    have : afterWord? (pipeWord written) cs = some rest := by
      rw [pipeWord, afterWord?_word_append, hside, Option.bind_some, hpipe]
    obtain ⟨word, hword, heq⟩ := afterWord?_eq_some_iff.1 this
    exact ⟨written, word, hword, heq, rfl⟩
  · rintro ⟨written, word, hword, heq, rfl⟩
    have : afterWord? (pipeWord written) cs = some rest :=
      afterWord?_eq_some_iff.2 ⟨word, hword, heq⟩
    rw [pipeWord, afterWord?_word_append] at this
    obtain ⟨r, hside, hpipe⟩ := Option.bind_eq_some_iff.1 this
    exact ⟨r, ⟨written, hside, rfl⟩, hpipe⟩

theorem startsPipe_iff : startsPipe cs = true ↔
    ∃ written word rest, IsWord (pipeWord written) word ∧ cs = word ++ rest := by
  have mention : startsPipe cs = true ↔ ∃ side rest r, side? cs = some (side, r) ∧
      afterWord? "pipe".toList r = some rest := by
    unfold startsPipe
    cases side? cs with
    | none => simp
    | some found =>
      rw [Option.isSome_iff_exists]
      constructor
      · rintro ⟨rest, hrest⟩
        exact ⟨found.1, rest, found.2, rfl, hrest⟩
      · rintro ⟨_, rest, r, heq, hrest⟩
        obtain rfl := Option.some.inj heq
        exact ⟨rest, hrest⟩
  rw [mention]
  constructor
  · rintro ⟨side, rest, found⟩
    obtain ⟨written, word, hword, heq, _⟩ := afterPipe_iff.1 found
    exact ⟨written, word, rest, hword, heq⟩
  · rintro ⟨written, word, rest, hword, heq⟩
    exact ⟨_, rest, afterPipe_iff.2 ⟨written, word, hword, heq, rfl⟩⟩

variable {ts params : List Token} {ins outs : List PipeRef}
  {names others : Side → String → Nat → Prop}

structure PipeKey (side : Side) (key digits : List Char) : Prop where
  word : ∃ word, IsWord (pipeWord side) word ∧ key = word ++ '.' :: digits
  ne_nil : digits ≠ []
  digits : ∀ c ∈ digits, Text.isDigit c = true

def NamesPipe (side : Side) (key : String) (slot : Nat) : Prop :=
  ∃ digits, PipeKey side key.toList digits ∧ Text.Denotes digits slot

theorem slotDigits?_eq_some_iff (line : '\n' ∉ key) (hne : digits ≠ []) :
    slotDigits? key = some (side, digits) ↔
      ∃ written, PipeKey written key digits ∧ side = takenFor written key := by
  have found : slotDigits? key = some (side, digits) ↔ ∃ rest,
      (∃ r, side? key = some (side, r) ∧ afterWord? "pipe".toList r = some ('.' :: rest)) ∧
        (rest.dropWhile Text.isDigit = [] ∨ rest.dropWhile Text.isDigit = ['\n']) ∧
        rest.takeWhile Text.isDigit = digits := by
    unfold slotDigits?
    simp only [Option.bind_eq_bind, Option.bind_eq_some_iff, Prod.exists]
    constructor
    · rintro ⟨_, r, hside, _, hpipe, h⟩
      split at h
      · rename_i rest
        split at h
        · rename_i hstop
          simp only [Option.some.injEq, Prod.mk.injEq] at h
          obtain ⟨rfl, hdigits⟩ := h
          exact ⟨rest, ⟨r, hside, hpipe⟩, hstop, hdigits⟩
        · cases h
      · cases h
    · rintro ⟨rest, ⟨r, hside, hpipe⟩, hstop, rfl⟩
      exact ⟨side, r, hside, _, hpipe, by simp only [if_pos hstop]⟩
  rw [found]
  constructor
  · rintro ⟨rest, hafter, hstop, rfl⟩
    obtain ⟨written, word, hword, rfl, rfl⟩ := afterPipe_iff.1 hafter
    have whole : rest.takeWhile Text.isDigit = rest := by
      have parts := List.takeWhile_append_dropWhile (p := Text.isDigit) (l := rest)
      rcases hstop with hstop | hstop
      · rwa [hstop, List.append_nil] at parts
      · rw [hstop] at parts
        rw [← parts] at line
        simp at line
    rw [whole] at hne ⊢
    exact ⟨written, ⟨⟨word, hword, rfl⟩, hne, List.takeWhile_eq_self_iff.1 whole⟩, rfl⟩
  · rintro ⟨written, ⟨⟨word, hword, rfl⟩, _, hdigits⟩, rfl⟩
    exact ⟨digits, afterPipe_iff.2 ⟨written, word, hword, rfl, rfl⟩,
      .inl (List.dropWhile_eq_nil_iff.2 hdigits), List.takeWhile_eq_self_iff.2 hdigits⟩

theorem pipeKey?_eq_some_iff {key : String} (line : '\n' ∉ key.toList) :
    pipeKey? key = some (side, n) ↔
      ∃ written, NamesPipe written key n ∧ side = takenFor written key.toList := by
  simp only [pipeKey?, Option.bind_eq_bind, Option.bind_eq_some_iff, Prod.exists,
    Text.digitsValue?_eq_some_iff, Option.some.injEq, Prod.mk.injEq]
  constructor
  · rintro ⟨_, digits, found, _, ⟨hne, denotes⟩, rfl, rfl⟩
    obtain ⟨written, hkey, hside⟩ := (slotDigits?_eq_some_iff line hne).1 found
    exact ⟨written, ⟨digits, hkey, denotes⟩, hside⟩
  · rintro ⟨written, ⟨digits, hkey, denotes⟩, rfl⟩
    exact ⟨_, digits, (slotDigits?_eq_some_iff line hkey.ne_nil).2 ⟨written, hkey, rfl⟩, n,
      ⟨hkey.ne_nil, denotes⟩, rfl, rfl⟩

theorem overlongSlot?_eq_none_iff {key : String} (line : '\n' ∉ key.toList) :
    overlongSlot? key = none ↔
      ∀ side digits, PipeKey side key.toList digits → digits.length ≤ Text.digitLimit := by
  unfold overlongSlot?
  constructor
  · intro h side digits hkey
    rw [(slotDigits?_eq_some_iff line hkey.ne_nil).2 ⟨side, hkey, rfl⟩] at h
    simpa using h
  · intro h
    cases found : slotDigits? key.toList with
    | none => rfl
    | some pair =>
      obtain ⟨side, digits⟩ := pair
      by_cases hne : digits = []
      · subst hne
        rfl
      · obtain ⟨written, hkey, _⟩ := (slotDigits?_eq_some_iff line hne).1 found
        simpa using h written digits hkey

theorem key_of_keyed? {value rest : List Char} (h : keyed? cs = some (key, value, rest)) :
    key = cs.takeWhile isKeyChar := by
  unfold keyed? at h
  split at h
  · split at h
    · cases h
    · obtain ⟨_, _, heq⟩ := Option.map_eq_some_iff.1 h
      exact (Prod.mk.inj heq).1.symm
  · cases h

theorem keyChars_of_scan (h : t ∈ scan cs) :
    ∀ key ∈ t.key, ∀ c ∈ key.toList, isKeyChar c = true := by
  induction cs using scan.induct with
  | case1 => simp [scan] at h
  | case2 c r u tail found ih =>
    rw [scan_token found, List.mem_cons] at h
    rcases h with rfl | h
    · unfold token? at found
      split at found
      · rename_i hkeyed
        obtain ⟨rfl, rfl⟩ := Prod.mk.inj (Option.some.inj found)
        intro key hkey
        obtain rfl := Option.some.inj hkey
        rw [key_of_keyed? hkeyed, String.toList_ofList]
        exact fun c hc => List.mem_takeWhile_imp hc
      · obtain ⟨_, _, heq⟩ := Option.map_eq_some_iff.1 found
        obtain ⟨rfl, _⟩ := Prod.mk.inj heq
        simp [token]
    · exact ih h
  | case3 c r skipped ih =>
    rw [scan_skip skipped] at h
    exact ih h

theorem line_of_scan (h : t ∈ scan cs) : ∀ key ∈ t.key, '\n' ∉ key.toList := fun key hkey hmem =>
  absurd (keyChars_of_scan h key hkey _ hmem) (by decide)

/-- The tokens whose keys name pipes go to the inputs or the outputs, the others to the parameters,
all in their order. -/
inductive Filed (names : Side → String → Nat → Prop) :
    List Token → List Token → List PipeRef → List PipeRef → Prop
  | nil : Filed names [] [] [] []
  | input {t : Token} {key : String} {slot : Nat} {ts params : List Token}
    {ins outs : List PipeRef} : t.key = some key → names .input key slot →
    Filed names ts params ins outs → Filed names (t :: ts) params (⟨slot, t.value⟩ :: ins) outs
  | output {t : Token} {key : String} {slot : Nat} {ts params : List Token}
    {ins outs : List PipeRef} : t.key = some key → names .output key slot →
    Filed names ts params ins outs → Filed names (t :: ts) params ins (⟨slot, t.value⟩ :: outs)
  | parameter {t : Token} {ts params : List Token} {ins outs : List PipeRef} :
    (∀ key ∈ t.key, ∀ side slot, ¬names side key slot) → Filed names ts params ins outs →
    Filed names (t :: ts) (t :: params) ins outs

theorem Filed.congr (h : Filed names ts params ins outs)
    (same : ∀ t ∈ ts, ∀ key ∈ t.key, ∀ side slot, names side key slot ↔ others side key slot) :
    Filed others ts params ins outs := by
  induction h with
  | nil => exact .nil
  | input hkey hname _ ih =>
    obtain ⟨first, rest⟩ := List.forall_mem_cons.1 same
    exact .input hkey ((first _ hkey _ _).1 hname) (ih rest)
  | output hkey hname _ ih =>
    obtain ⟨first, rest⟩ := List.forall_mem_cons.1 same
    exact .output hkey ((first _ hkey _ _).1 hname) (ih rest)
  | parameter hnone _ ih =>
    obtain ⟨first, rest⟩ := List.forall_mem_cons.1 same
    exact .parameter (fun key hkey side slot hname =>
      hnone key hkey side slot ((first key hkey side slot).2 hname)) (ih rest)

theorem pipe?_eq (side : Side) (t : Token) : Command.pipe? side t =
    (t.key.bind pipeKey?).bind fun found =>
      if found.1 = side then some ⟨found.2, t.value⟩ else none := by
  unfold Command.pipe?
  cases t.key <;> rfl

theorem filed_tokens (ts : List Token) :
    Filed (fun side key slot => pipeKey? key = some (side, slot)) ts (ts.filter Command.isParameter)
      (ts.filterMap (Command.pipe? .input)) (ts.filterMap (Command.pipe? .output)) := by
  induction ts with
  | nil => exact .nil
  | cons t r ih =>
    cases found : t.key.bind pipeKey? with
    | none =>
      have hnone : ∀ key ∈ t.key, ∀ side slot, pipeKey? key ≠ some (side, slot) := by
        intro key hkey side slot
        rw [hkey, Option.bind_some] at found
        simp [found]
      have input : Command.pipe? .input t = none := by rw [pipe?_eq, found]; rfl
      have output : Command.pipe? .output t = none := by rw [pipe?_eq, found]; rfl
      rw [List.filter_cons_of_pos (by simp [Command.isParameter, found]),
        List.filterMap_cons_none input, List.filterMap_cons_none output]
      exact .parameter hnone ih
    | some pair =>
      obtain ⟨side, slot⟩ := pair
      obtain ⟨key, hkey, hpipe⟩ := Option.bind_eq_some_iff.1 found
      rw [List.filter_cons_of_neg (by simp [Command.isParameter, found])]
      cases side with
      | input =>
        have input : Command.pipe? .input t = some ⟨slot, t.value⟩ := by rw [pipe?_eq, found]; rfl
        have output : Command.pipe? .output t = none := by rw [pipe?_eq, found]; rfl
        rw [List.filterMap_cons_some input, List.filterMap_cons_none output]
        exact .input hkey hpipe ih
      | output =>
        have input : Command.pipe? .input t = none := by rw [pipe?_eq, found]; rfl
        have output : Command.pipe? .output t = some ⟨slot, t.value⟩ := by rw [pipe?_eq, found]; rfl
        rw [List.filterMap_cons_none input, List.filterMap_cons_some output]
        exact .output hkey hpipe ih

/-- A key that starts with the word for the inputs is taken for an output if its first letter is no
`i`. -/
def TakenFor (side : Side) (key : String) (slot : Nat) : Prop :=
  ∃ written, NamesPipe written key slot ∧ side = takenFor written key.toList

theorem tokens_ofParts (name body : List Char) :
    tokens (Command.ofParts name body).text = scan (Text.Chars.trim body) := by
  simp [tokens, Command.ofParts]

theorem exists_read_iff {marker text : String} : (∃ cs, CommandLine.read marker text = .ok cs) ↔
    ∀ c ∈ commands marker text, ∀ t ∈ tokens c.text, ∀ key ∈ t.key, ∀ side digits,
      PipeKey side key.toList digits → digits.length ≤ Text.digitLimit := by
  have short : (∃ cs, CommandLine.read marker text = .ok cs) ↔ overlong? marker text = none := by
    unfold CommandLine.read
    cases overlong? marker text <;> simp [pure, Except.pure, throw, throwThe, MonadExceptOf.throw]
  rw [short, overlong?, commands, List.forall_mem_map, List.findSome?_eq_none_iff]
  refine forall₂_congr fun e _ => ?_
  rw [tokens_ofParts, List.findSome?_eq_none_iff]
  refine forall₂_congr fun t ht => ?_
  cases hkey : t.key with
  | none => simp
  | some key =>
    simpa using overlongSlot?_eq_none_iff (line_of_scan ht key hkey)

theorem PipeKey.afterSide (h : PipeKey side key digits) :
    ∃ r, afterWord? side.name.toList key = some r := by
  obtain ⟨word, hword, heq⟩ := h.word
  have := afterWord?_eq_some_iff.2 ⟨word, hword, heq⟩
  rw [pipeWord, afterWord?_word_append] at this
  obtain ⟨r, hside, _⟩ := Option.bind_eq_some_iff.1 this
  exact ⟨r, hside⟩

theorem PipeKey.plain_out (h : PipeKey .output key digits) : startsOddly key = false := by
  obtain ⟨r, hout⟩ := h.afterSide
  exact startsOddly_of_out hout

theorem PipeKey.not_out {others : List Char} (h : PipeKey .input key digits) :
    ¬PipeKey .output key others := by
  intro hout
  obtain ⟨r, input⟩ := h.afterSide
  obtain ⟨r', output⟩ := hout.afterSide
  rw [Side.name, afterWord?_in_out output] at input
  cases input

theorem takenFor_iff {key : String}
    (plain : NamesPipe .input key n → startsOddly key.toList = false) :
    TakenFor side key n ↔ NamesPipe side key n := by
  have kept {written : Side} (h : NamesPipe written key n) :
      takenFor written key.toList = written := by
    have : startsOddly key.toList = false := by
      cases written with
      | input => exact plain h
      | output => exact h.choose_spec.1.plain_out
    rw [takenFor, this]
    rfl
  constructor
  · rintro ⟨written, h, rfl⟩
    rwa [kept h]
  · exact fun h => ⟨side, h, (kept h).symm⟩

/-- The tokens of every command that is read are sorted by their keys. A key of an input is none of
an output, and it is taken for one only if it starts with an odd letter. All is read unless a slot
has too many digits. -/
theorem files_by_side {marker text : String} :
    (∀ cs, CommandLine.read marker text = .ok cs → ∀ c ∈ cs,
      Filed TakenFor (tokens c.text) c.parameters c.inPipes c.outPipes ∧
        ((∀ t ∈ tokens c.text, ∀ key ∈ t.key, ∀ slot, NamesPipe .input key slot →
          startsOddly key.toList = false) →
        Filed NamesPipe (tokens c.text) c.parameters c.inPipes c.outPipes)) ∧
    ((∃ cs, CommandLine.read marker text = .ok cs) ↔
      ∀ c ∈ commands marker text, ∀ t ∈ tokens c.text, ∀ key ∈ t.key, ∀ side digits,
        PipeKey side key.toList digits → digits.length ≤ Text.digitLimit) ∧
    ∀ key slot other, NamesPipe .input key slot → ¬NamesPipe .output key other := by
  refine ⟨fun cs read c hc => ?_, exists_read_iff, ?_⟩
  · obtain rfl := commands_of_read read
    obtain ⟨⟨name, body⟩, _, rfl⟩ := List.mem_map.1 hc
    rw [tokens_ofParts]
    have filed : Filed TakenFor _ _ _ _ := (filed_tokens (scan (Text.Chars.trim body))).congr
      fun t ht key hkey side slot => pipeKey?_eq_some_iff (line_of_scan ht key hkey)
    exact ⟨filed, fun plain => filed.congr fun t ht key hkey side slot =>
      takenFor_iff (plain t ht key hkey slot)⟩
  · rintro key slot other ⟨digits, input, _⟩ ⟨digits', output, _⟩
    exact input.not_out output

def mixedKeys : String :=
  "--m INPİPE.٣=a outpıpe.10=b x=c inPipe=d"

def mixedBody : List Char :=
  " INPİPE.٣=a outpıpe.10=b x=c inPipe=d".toList

theorem mixed_filed : CommandLine.read "\\" mixedKeys = .ok [Command.ofParts ['m'] mixedBody] ∧
    (Command.ofParts ['m'] mixedBody).inPipes = [⟨3, "a"⟩] ∧
    (Command.ofParts ['m'] mixedBody).outPipes = [⟨10, "b"⟩] ∧
    Filed NamesPipe (tokens (Command.ofParts ['m'] mixedBody).text)
      (Command.ofParts ['m'] mixedBody).parameters (Command.ofParts ['m'] mixedBody).inPipes
      (Command.ofParts ['m'] mixedBody).outPipes := by
  have parts : sections "\\" mixedKeys = [(['m'], mixedBody)] := by decide +kernel
  have short : overlong? "\\" mixedKeys = none := by decide +kernel
  have read : CommandLine.read "\\" mixedKeys = .ok [Command.ofParts ['m'] mixedBody] := by
    rw [CommandLine.read, short, commands, parts]
    rfl
  have plain : ∀ t ∈ tokens (Command.ofParts ['m'] mixedBody).text, ∀ key ∈ t.key,
      startsOddly key.toList = false := by decide +kernel
  exact ⟨read, by decide +kernel, by decide +kernel,
    (files_by_side.1 _ read _ List.mem_cons_self).2 fun t ht key hkey _ _ => plain t ht key hkey⟩

theorem dotless_input_swapped : ∃ c, CommandLine.read "\\" "--m ınPipe.0=a" = .ok [c] ∧
    NamesPipe .input "ınPipe.0" 0 ∧ tokens c.text = [⟨some "ınPipe.0", "a"⟩] ∧
    c.inPipes = [] ∧ c.outPipes = [⟨0, "a"⟩] ∧
    ¬Filed NamesPipe (tokens c.text) c.parameters c.inPipes c.outPipes := by
  have parts : sections "\\" "--m ınPipe.0=a" = [(['m'], " ınPipe.0=a".toList)] := by decide +kernel
  have short : overlong? "\\" "--m ınPipe.0=a" = none := by decide +kernel
  have named : NamesPipe .input "ınPipe.0" 0 := by
    refine ⟨['0'], ⟨⟨"ınPipe".toList, ?_, by decide⟩, by decide, by decide⟩, [0], ?_, by decide⟩
    · unfold IsWord
      decide
    · decide
  generalize hc : Command.ofParts ['m'] " ınPipe.0=a".toList = c
  have found : tokens c.text = [⟨some "ınPipe.0", "a"⟩] := by subst hc; decide +kernel
  have input : c.inPipes = [] := by subst hc; decide +kernel
  have output : c.outPipes = [⟨0, "a"⟩] := by subst hc; decide +kernel
  refine ⟨c, ?_, named, found, input, output, ?_⟩
  · rw [CommandLine.read, short, commands, parts, ← hc]
    rfl
  · rw [found, input, output]
    generalize c.parameters = params
    intro filed
    cases filed with
    | output hkey hname _ =>
      obtain rfl := Option.some.inj hkey
      obtain ⟨_, hout, _⟩ := hname
      obtain ⟨_, hin, _⟩ := named
      exact hin.not_out hout
    | parameter hnone _ => exact hnone _ rfl _ _ named

end Sluice.CommandLine
