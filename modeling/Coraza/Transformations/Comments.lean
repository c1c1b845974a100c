import Coraza.Go.Strings
import Coraza.Lib.Rewriting

/-!
# Comments

The transformations `removeComments`, `removeCommentsChar` and `replaceComments`.  The first and
the last read a text in two states, outside and inside a comment; what is written in place of
a comment is never as long as the comment.  So the flags of all three are right
(`removeComments_tracks`, `removeCommentsChar_tracks`, `replaceComments_tracks`).
-/

namespace Coraza.Transformations

open Go Rewriting List

def startsWith (pre text : Bytes) : Bool := pre.isPrefixOf text

def openComment : Bytes := [0x2F, 0x2A]

def closeComment : Bytes := [0x2A, 0x2F]

def openHTML : Bytes := [0x3C, 0x21, 0x2D, 0x2D]

def closeHTML : Bytes := [0x2D, 0x2D, 0x3E]

def dashes : Bytes := [0x2D, 0x2D]

/-! ### `removeComments` -/

/-- The end of a comment, of which `n` bytes follow the first one: the byte after it is copied
unseen.  At the end of the text this is the byte 0 with which the text was padded. -/
def closePiece (n : Nat) (t : Bytes) : Piece UInt8 Bool :=
  match t.drop n with
  | [] => ⟨[0], n, false, false⟩
  | c :: _ => ⟨[c], n + 1, false, false⟩

/-- A round of `removeComments`; the state is `incomment`. -/
def removeCommentsStep (incomment : Bool) (b : UInt8) (t : Bytes) : Piece UInt8 Bool :=
  if incomment = false then
    if startsWith openComment (b :: t) then ⟨[], 1, true, true⟩
    else if startsWith openHTML (b :: t) then ⟨[], 3, true, true⟩
    -- the rest of the text is a comment
    else if startsWith dashes (b :: t) then ⟨[], t.length, true, false⟩
    else if b = 0x23 then ⟨[], t.length, true, false⟩
    else ⟨[b], 0, false, false⟩
  else
    if startsWith closeComment (b :: t) then closePiece 1 t
    else if startsWith closeHTML (b :: t) then closePiece 2 t
    else ⟨[], 0, false, true⟩

/-- A space stands for a comment that is not closed. -/
def unclosed (incomment : Bool) : Bytes := if incomment then [0x20] else []

def removeComments (value : Bytes) : Bytes × Bool := run removeCommentsStep unclosed false value

/-! ### `removeCommentsChar` -/

def removeCommentsCharStep (_ : Unit) (b : UInt8) (t : Bytes) : Piece UInt8 Unit :=
  if startsWith openComment (b :: t) then replace [] 1
  else if startsWith closeComment (b :: t) then replace [] 1
  else if startsWith openHTML (b :: t) then replace [] 3
  else if startsWith closeHTML (b :: t) then replace [] 2
  else if startsWith dashes (b :: t) then replace [] 1
  else if b = 0x23 then replace [] 0
  else copy b

def removeCommentsChar (value : Bytes) : Bytes × Bool :=
  if Strings.containsAny value [0x2F, 0x2A, 0x3C, 0x2D, 0x23] = false then (value, false)
  else run removeCommentsCharStep (fun _ => []) () value

/-! ### `replaceComments` -/

/-- A round of `doReplaceComments`; the state is `incomment`. -/
def replaceCommentsStep (incomment : Bool) (b : UInt8) (t : Bytes) : Piece UInt8 Bool :=
  if incomment = false then
    if startsWith openComment (b :: t) then ⟨[], 1, true, true⟩ else ⟨[b], 0, false, false⟩
  else if startsWith closeComment (b :: t) then ⟨[0x20], 1, false, false⟩
  else ⟨[], 0, false, true⟩

def doReplaceComments (value : Bytes) : Bytes × Bool := run replaceCommentsStep unclosed false value

def replaceComments (data : Bytes) : Bytes × Bool :=
  if Strings.contains data openComment = false then (data, false) else doReplaceComments data

/-! ### The flags -/

/-- What is known of a text that is read inside or outside a comment. -/
def CommentTracks (incomment : Bool) (read written : Bytes) (changed : Bool) : Prop :=
  if incomment then written.length ≤ read.length + 1 else Tracks read written changed

theorem startsWith_length {pre text : Bytes} (h : startsWith pre text = true) :
    pre.length ≤ text.length := (List.isPrefixOf_iff_prefix.mp h).length_le

theorem commentTracks_open {b : UInt8} {t rest : Bytes} {c : Bool} {n : Nat} (hn : 1 ≤ n)
    (hlength : n ≤ t.length) (h : CommentTracks true (t.drop n) rest c) :
    CommentTracks false (b :: t) ([] ++ rest) (true || c) := by
  have hle : rest.length ≤ (t.drop n).length + 1 := h
  rw [length_drop] at hle
  refine Tracks.of_lt ?_
  rw [nil_append, length_cons]
  omega

/-- A loop over comments has a right flag if its rounds outside comments copy a byte, drop the
rest of the text or begin a comment, and those inside write at most one byte. -/
theorem run_commentTracks {step : Bool → UInt8 → Bytes → Piece UInt8 Bool}
    (houtside : ∀ b t, step false b t = ⟨[b], 0, false, false⟩ ∨
      step false b t = ⟨[], t.length, true, false⟩ ∨
      ∃ n, 1 ≤ n ∧ n ≤ t.length ∧ step false b t = ⟨[], n, true, true⟩)
    (hinside : ∀ b t, step true b t = ⟨[], 0, false, true⟩ ∨
      ∃ x n, 1 ≤ n ∧ n ≤ t.length ∧ step true b t = ⟨[x], n, false, false⟩) (value : Bytes) :
    Tracks value (run step unclosed false value).1 (run step unclosed false value).2 := by
  refine run_induction (P := CommentTracks) ?_ ?_ value false
  · intro incomment
    cases incomment with
    | false => exact .refl []
    | true => exact Nat.le_refl 1
  · intro incomment b t rest c h
    cases incomment with
    | false =>
      rcases houtside b t with hstep | hstep | ⟨n, hn, hlength, hstep⟩
      · rw [hstep] at h ⊢
        exact (Tracks.refl [b]).append h
      · rw [hstep] at h ⊢
        have hnil : Tracks [] rest c := by
          rw [drop_length] at h
          exact h
        refine Tracks.of_lt ?_
        exact Nat.lt_succ_of_le (hnil.length_le.trans (Nat.zero_le _))
      · rw [hstep] at h ⊢
        exact commentTracks_open hn hlength h
    | true =>
      show (_ : Bytes).length ≤ (b :: t).length + 1
      rcases hinside b t with hstep | ⟨x, n, hn, hlength, hstep⟩
      · rw [hstep] at h ⊢
        have hle : rest.length ≤ t.length + 1 := h
        rw [nil_append, length_cons]
        omega
      · rw [hstep] at h ⊢
        have htracks : Tracks (t.drop n) rest c := h
        have hle := htracks.length_le
        rw [length_drop] at hle
        rw [singleton_append, length_cons, length_cons]
        omega

theorem closePiece_eq {n : Nat} {t : Bytes} (hn : 1 ≤ n) (hlength : n ≤ t.length) :
    ∃ x m, 1 ≤ m ∧ m ≤ t.length ∧ closePiece n t = ⟨[x], m, false, false⟩ := by
  unfold closePiece
  split
  · exact ⟨0, n, hn, hlength, rfl⟩
  · rename_i c rest hdrop
    have hlt : n < t.length := by
      by_contra hge
      rw [drop_eq_nil_of_le (Nat.not_lt.mp hge)] at hdrop
      cases hdrop
    exact ⟨c, n + 1, Nat.le_add_left 1 n, hlt, rfl⟩

/-- **The flag of `removeComments` is right.** -/
theorem removeComments_tracks (value : Bytes) :
    Tracks value (removeComments value).1 (removeComments value).2 := by
  refine run_commentTracks (fun b t => ?_) (fun b t => ?_) value
  · unfold removeCommentsStep
    rw [if_pos rfl]
    split
    · rename_i h
      exact .inr (.inr ⟨1, Nat.le_refl 1, Nat.le_of_succ_le_succ (startsWith_length h), rfl⟩)
    · split
      · rename_i h
        exact .inr (.inr ⟨3, by decide, Nat.le_of_succ_le_succ (startsWith_length h), rfl⟩)
      · split
        · exact .inr (.inl rfl)
        · split
          · exact .inr (.inl rfl)
          · exact .inl rfl
  · unfold removeCommentsStep
    rw [if_neg (by decide)]
    split
    · rename_i h
      exact .inr (closePiece_eq (Nat.le_refl 1) (Nat.le_of_succ_le_succ (startsWith_length h)))
    · split
      · rename_i h
        exact .inr (closePiece_eq (by decide) (Nat.le_of_succ_le_succ (startsWith_length h)))
      · exact .inl rfl

/-- **The flag of `removeCommentsChar` is right.** -/
theorem removeCommentsChar_tracks (value : Bytes) :
    Tracks value (removeCommentsChar value).1 (removeCommentsChar value).2 := by
  unfold removeCommentsChar
  split
  · exact .refl value
  · refine run_tracks (fun _ b t => ?_) () value
    have hdrop : ∀ n, (replace [] n : Piece UInt8 Unit).Right b t :=
      fun n => .of_lt (Nat.succ_pos _)
    unfold removeCommentsCharStep
    split_ifs
    any_goals exact hdrop _
    exact right_copy b t

/-- **The flag of `replaceComments` is right.** -/
theorem replaceComments_tracks (data : Bytes) :
    Tracks data (replaceComments data).1 (replaceComments data).2 := by
  unfold replaceComments
  split
  · exact .refl data
  · refine run_commentTracks (fun b t => ?_) (fun b t => ?_) data
    · unfold replaceCommentsStep
      rw [if_pos rfl]
      split
      · rename_i h
        exact .inr (.inr ⟨1, Nat.le_refl 1, Nat.le_of_succ_le_succ (startsWith_length h), rfl⟩)
      · exact .inl rfl
    · unfold replaceCommentsStep
      rw [if_neg (by decide)]
      split
      · rename_i h
        exact .inr ⟨0x20, 1, Nat.le_refl 1, Nat.le_of_succ_le_succ (startsWith_length h), rfl⟩
      · exact .inl rfl

end Coraza.Transformations
