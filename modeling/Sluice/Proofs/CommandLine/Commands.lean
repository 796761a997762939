import Sluice.Proofs.CommandLine.Pipes
import Sluice.Proofs.CommandLine.Tokens

/-! What the commands of a text hold, whatever the text is. The dashes that start a command end the
text of the one before it, so that no value brings them in; and what is taken from a text as a whole
ends before the first pipe. -/

namespace Sluice.CommandLine

open Text (isBlank)
open Text.Chars (trim trimStart trimEnd)

variable {c : Char} {cs ds r : List Char} {w : Bool}

theorem startsDashes_of_isPrefix (h : startsDashes cs = false) (sub : ds <+: cs) :
    startsDashes ds = false := by
  obtain ⟨rest, rfl⟩ := sub
  cases ds with
  | nil => rfl
  | cons c ds =>
    cases ds with
    | nil => simp [startsDashes]
    | cons d ds => simpa only [List.cons_append, startsDashes_cons_cons] using h

theorem Calm.of_isPrefix (h : Calm cs) (sub : ds <+: cs) : Calm ds := by
  induction ds generalizing cs with
  | nil => trivial
  | cons d ds ih =>
    obtain ⟨rest, rfl⟩ := sub
    exact ⟨fun hd => startsDashes_of_isPrefix (h.1 hd) ⟨rest, rfl⟩, ih h.2 ⟨rest, rfl⟩⟩

theorem Calm.of_isInfix (h : Calm cs) (sub : ds <:+: cs) : Calm ds := by
  obtain ⟨before, after, rfl⟩ := sub
  exact (h.of_isPrefix (List.prefix_append _ _)).tail

theorem calm_trim (h : Calm (' ' :: cs)) : Calm (' ' :: trim cs) := by
  have start : Calm (' ' :: trimStart cs) := by
    induction cs with
    | nil => exact h
    | cons c r ih =>
      cases hc : isBlank c with
      | false => simpa [trimStart, hc] using h
      | true =>
        rw [trimStart, List.dropWhile_cons_of_pos hc]
        exact ih ⟨fun _ => h.2.1 hc, h.2.2⟩
  obtain ⟨blanks, hblanks⟩ := Text.Chars.trimEnd_eq (trimStart cs)
  exact start.of_isPrefix ⟨blanks, congrArg (' ' :: ·) hblanks.symm⟩

theorem trim_isInfix (cs : List Char) : trim cs <:+: cs := by
  obtain ⟨blanks, hblanks⟩ := Text.Chars.trimEnd_eq (trimStart cs)
  exact (List.IsPrefix.isInfix ⟨blanks, hblanks.symm⟩).trans (List.dropWhile_suffix _).isInfix

theorem calm_upToDashes (cs : List Char) : Calm (upToDashes cs).1 := by
  induction cs with
  | nil => trivial
  | cons c r ih =>
    rw [upToDashes]
    split
    · trivial
    · rename_i hdash
      refine ⟨fun hc => ?_, ih⟩
      have hr : startsDashes r = false := by simpa [hc] using hdash
      exact startsDashes_of_isPrefix hr ⟨_, upToDashes_append r⟩

theorem startsDashes_of_ends (h : Ends cs) : startsDashes cs = false := by
  cases cs with
  | nil => rfl
  | cons c r => exact startsDashes_of_ne (ne_dash (h c rfl)) r

theorem calm_of_split {e : List Char × List Char} (h : e ∈ split w cs) : Calm (' ' :: e.2) := by
  induction w, cs using split.induct with
  | case1 w => simp [split] at h
  | case2 w c r hit body ih =>
    rw [split, if_pos hit] at h
    rcases List.mem_cons.1 h with rfl | h
    · have ends : Ends (r.tail.dropWhile isWordChar) := fun d hd => by
        simpa [isWordChar] using Text.Chars.head?_dropWhile isWordChar _ d hd
      exact ⟨fun _ => startsDashes_of_isPrefix (startsDashes_of_ends ends)
        ⟨_, upToDashes_append _⟩, calm_upToDashes _⟩
    · exact ih h
  | case3 w c r miss ih =>
    rw [split, if_neg miss] at h
    exact ih h

theorem Pipeless.of_isInfix (h : Pipeless cs) (sub : ds <:+: cs) : Pipeless ds := by
  obtain ⟨a, b, rfl⟩ := sub
  intro before after hds
  subst hds
  refine Bool.eq_false_iff.2 fun found => ?_
  have := h (a ++ before) (after ++ b) (by simp)
  rw [startsPipe_append found] at this
  cases this

theorem beforePipe_isPrefix (cs : List Char) : beforePipe cs <+: cs := by
  induction cs with
  | nil => exact List.prefix_refl _
  | cons c r ih =>
    rw [beforePipe]
    split
    · exact List.nil_prefix
    · exact List.cons_prefix_cons.2 ⟨rfl, ih⟩

theorem pipeless_beforePipe (cs : List Char) : Pipeless (beforePipe cs) := by
  induction cs with
  | nil =>
    intro before after h
    obtain rfl : after = [] := by simpa using (List.append_eq_nil_iff.1 h.symm).2
    decide
  | cons c r ih =>
    rw [beforePipe]
    split
    · intro before after h
      obtain rfl : after = [] := (List.append_eq_nil_iff.1 h.symm).2
      decide
    · rename_i hnone
      intro before after h
      cases before with
      | cons b bs => exact ih bs after (List.cons.inj h).2
      | nil =>
        obtain ⟨rest, hrest⟩ := beforePipe_isPrefix r
        rw [List.nil_append] at h
        rw [← h]
        refine Bool.eq_false_iff.2 fun found => hnone ?_
        rw [← hrest]
        exact startsPipe_append found rest

theorem commands_of_read {marker text : String} {cs : List Command}
    (read : CommandLine.read marker text = .ok cs) : cs = commands marker text := by
  unfold CommandLine.read at read
  split at read
  · cases read
  · exact (Except.ok.inj read).symm

def Settled (s : String) : Prop :=
  Text.trim s = s ∧ Calm s.toList

theorem settled_trim (h : Calm (trim cs)) : Settled (String.ofList (trim cs)) := by
  refine ⟨?_, by rwa [String.toList_ofList]⟩
  rw [Text.trim, String.toList_ofList, Text.Chars.trim_trim]

theorem settled_of_parameter {marker text : String} {c : Command} (hc : c ∈ commands marker text)
    {t : Token} (ht : t ∈ c.parameters) : Settled t.value := by
  obtain ⟨⟨name, body⟩, he, rfl⟩ := List.mem_map.1 hc
  obtain ⟨v, sub, hv⟩ := (within_of_scan (List.mem_filter.1 ht).1).value
  rw [hv]
  exact settled_trim ((calm_trim (calm_of_split he)).2.of_isInfix ((trim_isInfix v).trans sub))

theorem settled_verbatimText {marker text : String} {c : Command} (hc : c ∈ commands marker text) :
    Settled (verbatimText c.text) ∧ Pipeless (verbatimText c.text).toList ∧
      startsDashes (verbatimText c.text).toList = false := by
  obtain ⟨⟨name, body⟩, he, rfl⟩ := List.mem_map.1 hc
  have htext : verbatimText (Command.ofParts name body).text =
      String.ofList (trim (beforePipe (trim body))) := by
    simp [verbatimText, Command.ofParts]
  have calm : Calm (' ' :: trim (beforePipe (trim body))) :=
    calm_trim ((calm_trim (calm_of_split he)).of_isPrefix
      (List.cons_prefix_cons.2 ⟨rfl, beforePipe_isPrefix _⟩))
  rw [htext]
  refine ⟨settled_trim calm.2, ?_, ?_⟩ <;> rw [String.toList_ofList]
  · exact (pipeless_beforePipe _).of_isInfix (trim_isInfix _)
  · exact calm.1 (by decide)

end Sluice.CommandLine
