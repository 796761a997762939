import Sluice.Text.Blank

/-! Line-break markers. A command line may be broken over several lines, with the marker of its
dialect at the end of each but the last. A marker that ends a line, or stands alone as a word,
becomes a space; inside a value it stays. -/

namespace Sluice.CommandLine

def after? : List Char → List Char → Option (List Char)
  | [], cs => some cs
  | _ :: _, [] => none
  | w :: ws, c :: cs => if w = c then after? ws cs else none

theorem after?_eq_some_iff {word cs rest : List Char} :
    after? word cs = some rest ↔ cs = word ++ rest := by
  induction word generalizing cs with
  | nil => simp [after?]
  | cons w ws ih =>
    cases cs with
    | nil => simp [after?]
    | cons c cs =>
      by_cases h : w = c
      · simp [after?, h, ih]
      · simp [after?, h, Ne.symm h]

theorem length_after? {word cs rest : List Char} (h : after? word cs = some rest) :
    rest.length + word.length = cs.length := by
  rw [after?_eq_some_iff.1 h, List.length_append, Nat.add_comm]

def afterLineEnd? (cs : List Char) : Option (List Char) :=
  match cs.dropWhile fun c => c = ' ' ∨ c = '\t' with
  | '\n' :: r => some r
  | '\r' :: '\n' :: r => some r
  | _ => none

theorem length_dropWhile_le (p : Char → Bool) (cs : List Char) :
    (cs.dropWhile p).length ≤ cs.length :=
  (List.dropWhile_sublist p).length_le

theorem length_afterLineEnd? {cs rest : List Char} (h : afterLineEnd? cs = some rest) :
    rest.length < cs.length := by
  have hle := length_dropWhile_le (fun c => c = ' ' ∨ c = '\t') cs
  unfold afterLineEnd? at h
  split at h
  · next r heq =>
    cases h
    rw [heq] at hle
    simp only [List.length_cons] at hle
    omega
  · next r heq =>
    cases h
    rw [heq] at hle
    simp only [List.length_cons] at hle
    omega
  · cases h

def endsWord : List Char → Bool
  | [] => true
  | c :: _ => Text.isBlank c

/-- The text with a space for each marker `m :: ms` that breaks a line. `atWord` tells that the
character before the text is a blank or that there is none. -/
def unbreak (m : Char) (ms : List Char) (atWord : Bool) : List Char → List Char
  | [] => []
  | c :: r =>
    match _h : if m = c then after? ms r else none with
    | none => c :: unbreak m ms (Text.isBlank c) r
    | some rest =>
      match _hl : afterLineEnd? rest with
      | some next => ' ' :: unbreak m ms true next
      | none =>
        if atWord && endsWord rest then
          ' ' :: unbreak m ms (Text.isBlank ((m :: ms).getLast (by simp))) rest
        else c :: unbreak m ms (Text.isBlank c) r
termination_by cs => cs.length
decreasing_by
  all_goals simp only [List.length_cons]
  · omega
  · split at _h
    · have := length_after? _h
      have := length_afterLineEnd? _hl
      omega
    · cases _h
  · split at _h
    · have := length_after? _h
      omega
    · cases _h
  · omega

def normalChars (marker : List Char) (cs : List Char) : List Char :=
  match marker with
  | [] => cs
  | m :: ms => unbreak m ms true cs

def normalize (marker text : String) : String :=
  String.ofList (normalChars marker.toList text.toList)

end Sluice.CommandLine
