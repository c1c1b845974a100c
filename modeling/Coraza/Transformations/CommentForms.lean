import Coraza.Lib.Delimiters
import Coraza.Transformations.Comments

/-!
# What is left of comments

What the outputs of `replaceComments`, `removeComments` and `removeCommentsChar` look like.

* `replaceComments` puts one space in the place of each comment.  `Replaced` says so without the
  loop, and `replaceComments_normalises` that this is what the function computes, that no `/*` is
  left, and that nothing is left to do the second time.
* `removeComments` copies the byte after a comment unseen.  So a `/*` can be left where a comment
  was removed: the byte after the comment is the `/` of a `/*`, or it is a `*` that comes next to a
  `/` before the comment.  `removeComments_seams` says that these are the only places.
* `removeCommentsChar` goes over its input once.  It leaves a marker exactly if two bytes it keeps,
  with markers between them that it drops, are one (`removeCommentsChar_joins`).
-/

namespace Coraza.Transformations

open Go Rewriting Delimiters

variable {pre text t opener : Bytes} {b : UInt8} {prev : Option UInt8}

theorem startsWith_iff : startsWith pre text = true ↔ pre <+: text :=
  List.isPrefixOf_iff_prefix

theorem startsWith_eq_false : startsWith pre text = false ↔ ¬pre <+: text := by
  rw [← startsWith_iff, Bool.not_eq_true]

/-! ### `replaceComments` -/

/-- The first text, read from left to right, with each comment replaced by one space.  A comment
goes from the first `/*` to the first `*/` after it, or to the end. -/
inductive Replaced : Bytes → Bytes → Prop
  | plain {text : Bytes} : ¬openComment <:+: text → Replaced text text
  | closed {pre body rest out : Bytes} : ¬openComment <:+: pre → ¬closeComment <:+: body →
      Replaced rest out →
      Replaced (pre ++ (openComment ++ (body ++ (closeComment ++ rest)))) (pre ++ 0x20 :: out)
  | cutOff {pre body : Bytes} : ¬openComment <:+: pre → ¬closeComment <:+: body →
      Replaced (pre ++ (openComment ++ body)) (pre ++ [0x20])

theorem free_single {d : Bytes} : Free [d] text ↔ ¬d <:+: text := by
  simp [Free]

theorem replaceCommentsStep_outside (b : UInt8) (t : Bytes) (h : NoneAt [openComment] (b :: t)) :
    (replaceCommentsStep false b t).written = [b] ∧ (replaceCommentsStep false b t).further = 0 ∧
      (replaceCommentsStep false b t).state = false := by
  simp [replaceCommentsStep, startsWith_eq_false.mpr (h openComment (by simp))]

theorem replaceCommentsStep_inside (b : UInt8) (t : Bytes) (h : NoneAt [closeComment] (b :: t)) :
    (replaceCommentsStep true b t).written = [] ∧ (replaceCommentsStep true b t).further = 0 ∧
      (replaceCommentsStep true b t).state = true := by
  simp [replaceCommentsStep, startsWith_eq_false.mpr (h closeComment (by simp))]

theorem apart_open : Apart [openComment] := by
  unfold Apart
  decide

theorem apart_close : Apart [closeComment] := by
  unfold Apart
  decide

theorem doReplaceComments_plain (h : ¬openComment <:+: text) :
    (doReplaceComments text).1 = text := by
  unfold doReplaceComments
  rw [run_free replaceCommentsStep_outside (free_single.mpr h)]
  simp [unclosed]

theorem doReplaceComments_open (h : ¬openComment <:+: pre) (rest : Bytes) :
    (doReplaceComments (pre ++ (openComment ++ rest))).1
      = pre ++ (run replaceCommentsStep unclosed true rest).1 := by
  unfold doReplaceComments
  rw [run_until replaceCommentsStep_outside apart_open (free_single.mpr h) (by simp)]
  simp [openComment, run_cons, replaceCommentsStep, startsWith]

/-- The loop computes what `Replaced` says. -/
theorem Replaced.eq {out : Bytes} (h : Replaced text out) : (doReplaceComments text).1 = out := by
  induction h with
  | plain hpre => exact doReplaceComments_plain hpre
  | closed hpre hbody _ ih =>
    rw [doReplaceComments_open hpre,
      run_until replaceCommentsStep_inside apart_close (free_single.mpr hbody) (by simp), ← ih]
    simp [closeComment, run_cons, replaceCommentsStep, startsWith, doReplaceComments]
  | cutOff hpre hbody =>
    rw [doReplaceComments_open hpre, run_free replaceCommentsStep_inside (free_single.mpr hbody)]
    simp [unclosed]

theorem exists_replaced : ∀ text : Bytes, ∃ out, Replaced text out := by
  intro text
  induction hn : text.length using Nat.strong_induction_on generalizing text with
  | _ n ih =>
    subst hn
    rcases exists_first [openComment] (by decide) text with
      hfree | ⟨pre, d, hd, rest, rfl, hpre⟩
    · exact ⟨text, .plain (free_single.mp hfree)⟩
    · obtain rfl := List.mem_singleton.mp hd
      rcases exists_first [closeComment] (by decide) rest with
        hfree | ⟨body, d, hd, rest, rfl, hbody⟩
      · exact ⟨_, .cutOff (free_single.mp hpre) (free_single.mp hfree)⟩
      · obtain rfl := List.mem_singleton.mp hd
        obtain ⟨out, hout⟩ := ih rest.length (by simp [openComment]; omega) rest rfl
        exact ⟨_, .closed (free_single.mp hpre) (free_single.mp hbody) hout⟩

theorem Replaced.no_open {out : Bytes} (h : Replaced text out) : ¬openComment <:+: out := by
  have hspace : (0x20 : UInt8) ∉ openComment := by decide
  induction h with
  | plain hpre => exact hpre
  | closed hpre _ _ ih =>
    intro hinfix
    rcases infix_append_cons hspace hinfix with h | h
    · exact hpre h
    · exact ih h
  | cutOff hpre _ =>
    intro hinfix
    rcases infix_append_cons hspace hinfix with h | h
    · exact hpre h
    · exact absurd (List.infix_nil.mp h) (by decide)

theorem replaceComments_eq (data : Bytes) :
    (replaceComments data).1 = (doReplaceComments data).1 := by
  unfold replaceComments
  split
  · rename_i h
    have hnot : ¬openComment <:+: data := by
      rw [← Strings.contains_iff, h]
      decide
    exact (doReplaceComments_plain hnot).symm
  · rfl

/-- **`replaceComments` is a normaliser.**  Its output has no `/*`, a second application does
nothing, and the output is the input with each comment replaced by one space. -/
theorem replaceComments_normalises (data : Bytes) : ¬openComment <:+: (replaceComments data).1 ∧
      replaceComments (replaceComments data).1 = ((replaceComments data).1, false) ∧
      ∀ out, Replaced data out ↔ out = (replaceComments data).1 := by
  obtain ⟨out, hout⟩ := exists_replaced data
  have heq : (replaceComments data).1 = out := (replaceComments_eq data).trans hout.eq
  have hnone : ¬openComment <:+: (replaceComments data).1 := by
    rw [heq]
    exact hout.no_open
  refine ⟨hnone, ?_, ?_⟩
  · have hcontains : Strings.contains (replaceComments data).1 openComment = false := by
      rw [← Bool.not_eq_true, Strings.contains_iff]
      exact hnone
    rw [replaceComments, if_pos hcontains]
  · intro out'
    constructor
    · intro h
      rw [replaceComments_eq, h.eq]
    · rintro rfl
      rw [heq]
      exact hout

/-! ### `removeComments` -/

def openers : List Bytes := [openComment, openHTML]

/-- The ends of a comment; each ends a comment of either kind. -/
def closers : List Bytes := [closeComment, closeHTML]

/-- A comment that is closed, with its parts. -/
structure IsComment (opener body closer : Bytes) : Prop where
  opener_mem : opener ∈ openers
  closer_mem : closer ∈ closers
  body_free : Free closers body

/-- Outside comments the loop copies the next byte. -/
def IsPlain (text : Bytes) : Prop := NoneAt [openComment, openHTML, dashes, [0x23]] text

/-- A text, read outside comments after the byte `prev`, in which a `/*` is left where a comment was
removed: after the comment, or around it. -/
inductive Seam : Option UInt8 → Bytes → Prop
  | after {prev : Option UInt8} {opener body closer post : Bytes} : IsComment opener body closer →
      openComment <+: post → Seam prev (opener ++ (body ++ (closer ++ post)))
  | around {opener body closer post : Bytes} : IsComment opener body closer →
      Seam (some 0x2F) (opener ++ (body ++ (closer ++ 0x2A :: post)))
  | byte {prev : Option UInt8} {b : UInt8} {t : Bytes} : IsPlain (b :: t) → Seam (some b) t →
      Seam prev (b :: t)
  | comment {prev : Option UInt8} {opener body closer t : Bytes} {x : UInt8} :
      IsComment opener body closer → Seam (some x) t →
      Seam prev (opener ++ (body ++ (closer ++ x :: t)))

theorem removeComments_byte (h : IsPlain (b :: t)) :
    (removeComments (b :: t)).1 = b :: (removeComments t).1 := by
  have hsingle : ¬(b = 0x23) := by
    rintro rfl
    exact h [0x23] (by simp) (List.prefix_append [0x23] t)
  have hstep : removeCommentsStep false b t = ⟨[b], 0, false, false⟩ := by
    simp [removeCommentsStep, hsingle, startsWith_eq_false.mpr (h openComment (by simp)),
      startsWith_eq_false.mpr (h openHTML (by simp)), startsWith_eq_false.mpr (h dashes (by simp))]
  unfold removeComments
  rw [run_cons, hstep]
  rfl

theorem removeComments_open (h : opener ∈ openers) (rest : Bytes) :
    (removeComments (opener ++ rest)).1 = (run removeCommentsStep unclosed true rest).1 := by
  simp only [openers, List.mem_cons, List.not_mem_nil, or_false] at h
  rcases h with rfl | rfl <;>
    simp [removeComments, openComment, openHTML, run_cons, removeCommentsStep, startsWith]

theorem removeCommentsStep_inside (b : UInt8) (t : Bytes) (h : NoneAt closers (b :: t)) :
    (removeCommentsStep true b t).written = [] ∧ (removeCommentsStep true b t).further = 0 ∧
      (removeCommentsStep true b t).state = true := by
  simp [removeCommentsStep, startsWith_eq_false.mpr (h closeComment (by simp [closers])),
    startsWith_eq_false.mpr (h closeHTML (by simp [closers]))]

theorem apart_closers : Apart closers := by
  unfold Apart
  decide

/-- A comment is removed, and the byte after it is copied. -/
theorem removeComments_comment {body closer : Bytes} (h : IsComment opener body closer)
    (post : Bytes) :
    (removeComments (opener ++ (body ++ (closer ++ post)))).1
      = match post with
        | [] => [0]
        | x :: t => x :: (removeComments t).1 := by
  rw [removeComments_open h.opener_mem,
    run_until removeCommentsStep_inside apart_closers h.body_free h.closer_mem]
  have hcloser := h.closer_mem
  simp only [closers, List.mem_cons, List.not_mem_nil, or_false] at hcloser
  rcases hcloser with rfl | rfl <;> cases post <;>
    simp [removeComments, closeComment, closeHTML, run_cons, removeCommentsStep, startsWith,
      closePiece, unclosed]

theorem removeComments_cutOff {body : Bytes} (hopener : opener ∈ openers)
    (hbody : Free closers body) : (removeComments (opener ++ body)).1 = [0x20] := by
  rw [removeComments_open hopener, run_free removeCommentsStep_inside hbody]
  simp [unclosed]

theorem removeComments_dropped (hopen : NoneAt openers (b :: t))
    (h : dashes <+: b :: t ∨ b = 0x23) : (removeComments (b :: t)).1 = [] := by
  have hc := startsWith_eq_false.mpr (hopen openComment (by simp [openers]))
  have hhtml := startsWith_eq_false.mpr (hopen openHTML (by simp [openers]))
  have hstep : removeCommentsStep false b t = ⟨[], t.length, true, false⟩ := by
    rcases h with hdash | rfl
    · simp [removeCommentsStep, hc, hhtml, startsWith_iff.mpr hdash]
    · simp [removeCommentsStep, hc, hhtml]
  unfold removeComments
  rw [run_cons, hstep]
  simp [unclosed]

variable {x : UInt8}

theorem open_infix_cons {l : Bytes} : openComment <:+: prev.toList ++ x :: l ↔
      (prev = some 0x2F ∧ x = 0x2A) ∨ openComment <:+: (some x).toList ++ l := by
  cases prev with
  | none => simp
  | some p =>
    rw [Option.toList_some, List.singleton_append, List.infix_cons_iff]
    simp [openComment, eq_comm]

theorem Seam.exposes {value : Bytes} (h : Seam prev value) :
    openComment <:+: prev.toList ++ (removeComments value).1 := by
  induction h with
  | @after prev opener body closer post hcomment hpost =>
    obtain ⟨t, rfl⟩ := hpost
    rw [removeComments_comment hcomment]
    refine List.IsInfix.trans (List.prefix_append openComment (removeComments t).1).isInfix ?_
    exact (List.suffix_append _ _).isInfix
  | around hcomment =>
    rw [removeComments_comment hcomment]
    exact open_infix_cons.mpr (.inl ⟨rfl, rfl⟩)
  | byte hplain _ ih =>
    rw [removeComments_byte hplain]
    exact open_infix_cons.mpr (.inr ih)
  | comment hcomment _ ih =>
    rw [removeComments_comment hcomment]
    exact open_infix_cons.mpr (.inr ih)

theorem not_open_infix (hx : x ≠ 0x2A) : ¬openComment <:+: prev.toList ++ [x] := by
  intro h
  rcases open_infix_cons.mp h with ⟨-, hstar⟩ | hlast
  · exact hx hstar
  · exact absurd hlast.length_le (by simp [openComment])

theorem open_prefix_cons (hslash : some x = some 0x2F) (hstar : t.head? = some 0x2A) :
    openComment <+: x :: t := by
  cases hslash
  obtain ⟨t, rfl⟩ := List.head?_eq_some_iff.mp hstar
  exact List.prefix_append openComment t

/-- A `/*` that is left comes from a seam, or stands at the beginning after a `/`. -/
theorem seam_of_exposed : ∀ (value : Bytes) (prev : Option UInt8),
    openComment <:+: prev.toList ++ (removeComments value).1 →
      (prev = some 0x2F ∧ value.head? = some 0x2A) ∨ Seam prev value := by
  intro value
  induction hn : value.length using Nat.strong_induction_on generalizing value with
  | _ n ih =>
    intro prev h
    subst hn
    cases value with
    | nil =>
      cases prev with
      | none => exact absurd h (by decide)
      | some p => exact absurd h.length_le (by simp [openComment, removeComments, unclosed])
    | cons b t =>
      by_cases hopen : NoneAt openers (b :: t)
      · by_cases hdrop : dashes <+: b :: t ∨ b = 0x23
        · rw [removeComments_dropped hopen hdrop] at h
          have hle := h.length_le
          cases prev <;> simp [openComment] at hle
        · have hplain : IsPlain (b :: t) := by
            intro d hd
            simp only [List.mem_cons, List.not_mem_nil, or_false] at hd
            rcases hd with rfl | rfl | rfl | rfl
            · exact hopen _ (by simp [openers])
            · exact hopen _ (by simp [openers])
            · exact fun hdash => hdrop (.inl hdash)
            · intro hhash
              exact hdrop (.inr (List.cons_prefix_cons.mp hhash).1.symm)
          rw [removeComments_byte hplain] at h
          rcases open_infix_cons.mp h with ⟨hprev, hb⟩ | hrest
          · exact .inl ⟨hprev, by rw [List.head?_cons, hb]⟩
          · refine .inr (.byte hplain ?_)
            rcases ih t.length (by simp) t rfl (some b) hrest with ⟨hslash, hstar⟩ | hseam
            · -- the two bytes are a `/*`, which is not copied
              exact absurd (open_prefix_cons hslash hstar) (hopen openComment (by simp [openers]))
            · exact hseam
      · unfold NoneAt at hopen
        push Not at hopen
        obtain ⟨opener, hopener, rest, hrest⟩ := hopen
        rw [← hrest] at h ⊢
        rcases exists_first closers (by decide) rest with
          hfree | ⟨body, closer, hcloser, post, rfl, hbody⟩
        · rw [removeComments_cutOff hopener hfree] at h
          exact absurd h ( not_open_infix (by decide))
        · have hcomment : IsComment opener body closer := ⟨hopener, hcloser, hbody⟩
          rw [removeComments_comment hcomment] at h
          cases post with
          | nil => exact absurd h ( not_open_infix (by decide))
          | cons x t =>
            right
            rcases open_infix_cons.mp h with ⟨rfl, rfl⟩ | hnext
            · exact .around hcomment
            · have hlt : t.length < (b :: t).length := by simp
              have hlength := congrArg List.length hrest
              rcases ih t.length (by simp at hlength ⊢; omega) t rfl (some x) hnext with
                ⟨hslash, hstar⟩ | hseam
              · exact .after hcomment (open_prefix_cons hslash hstar)
              · exact .comment hcomment hseam

/-- **`removeComments` leaves a `/*` exactly at its seams**: where the byte after a comment that was
removed begins a `/*`, or is a `*` and the byte before the comment a `/`.  So no complete comment is
left in a text without such a place. -/
theorem removeComments_seams (value : Bytes) :
    (openComment <:+: (removeComments value).1 ↔ Seam none value) ∧
      ((∃ x, openComment ++ (x ++ closeComment) <:+: (removeComments value).1) →
        Seam none value) := by
  have hiff : openComment <:+: (removeComments value).1 ↔ Seam none value := by
    constructor
    · intro h
      rcases seam_of_exposed value none h with ⟨hprev, -⟩ | hseam
      · cases hprev
      · exact hseam
    · exact Seam.exposes
  refine ⟨hiff, ?_⟩
  rintro ⟨x, hx⟩
  exact hiff.mp ((List.prefix_append openComment _).isInfix.trans hx)

/-- The text `/**//*x*/` has a seam. -/
theorem removeComments_seams_after :
    Seam none [0x2F, 0x2A, 0x2A, 0x2F, 0x2F, 0x2A, 0x78, 0x2A, 0x2F] :=
  (removeComments_seams _).2 ⟨[0x78], by decide +kernel⟩

/-- Of `/**//*x*/` the comment `/*x*/` is left: its `/` is the byte after the first comment. -/
theorem removeComments_leaves_comment :
    ¬∀ value : Bytes, ¬∃ x, openComment ++ (x ++ closeComment) <:+: (removeComments value).1 := by
  intro h
  refine h [0x2F, 0x2A, 0x2A, 0x2F, 0x2F, 0x2A, 0x78, 0x2A, 0x2F] ⟨[0x78], ?_⟩
  decide +kernel

/-! ### `removeCommentsChar` -/

def commentMarkers : List Bytes :=
  [openComment, closeComment, openHTML, closeHTML, dashes, [0x23]]

def markerAt (text : Bytes) : Option Bytes := commentMarkers.find? (fun m => startsWith m text)

/-- One or more markers are dropped from the beginning of a text. -/
inductive Dropped : Bytes → Bytes → Prop
  | one {m rest : Bytes} : markerAt (m ++ rest) = some m → Dropped (m ++ rest) rest
  | more {m text rest : Bytes} : markerAt (m ++ text) = some m → Dropped text rest →
      Dropped (m ++ text) rest

/-- The markers of two bytes; every other marker contains one of them, except `#`. -/
def joints : List Bytes := [openComment, closeComment, dashes]

/-- A text in which two bytes that are kept, with one or more markers between them that are dropped,
form a marker. -/
inductive Joins : Bytes → Prop
  | here {b c : UInt8} {text t : Bytes} : markerAt (b :: text) = none → Dropped text (c :: t) →
      markerAt (c :: t) = none → [b, c] ∈ joints → Joins (b :: text)
  | byte {b : UInt8} {t : Bytes} : markerAt (b :: t) = none → Joins t → Joins (b :: t)
  | marker {m t : Bytes} : markerAt (m ++ t) = some m → Joins t → Joins (m ++ t)

def charOut (text : Bytes) : Bytes := (run removeCommentsCharStep (fun _ => []) () text).1

theorem removeCommentsCharStep_eq (b : UInt8) (t : Bytes) : removeCommentsCharStep () b t
      = match markerAt (b :: t) with
        | some m => replace [] (m.length - 1)
        | none => copy b := by
  have hhash : startsWith [0x23] (b :: t) = decide (b = 0x23) := by
    rw [Bool.eq_iff_iff, startsWith_iff]
    simp [eq_comm]
  unfold removeCommentsCharStep markerAt commentMarkers
  simp only [List.find?_cons, hhash]
  cases startsWith openComment (b :: t)
  · cases startsWith closeComment (b :: t)
    · cases startsWith openHTML (b :: t)
      · cases startsWith closeHTML (b :: t)
        · cases startsWith dashes (b :: t)
          · by_cases hb : b = 0x23 <;> simp [hb]
          · rfl
        · rfl
      · rfl
    · rfl
  · rfl

theorem charOut_byte (h : markerAt (b :: t) = none) : charOut (b :: t) = b :: charOut t := by
  unfold charOut
  rw [run_cons, removeCommentsCharStep_eq, h]
  rfl

theorem markerAt_some {m : Bytes} (h : markerAt text = some m) : m ∈ commentMarkers ∧ m <+: text :=
  ⟨List.mem_of_find?_eq_some h,
    startsWith_iff.mp (List.find?_some (p := fun m => startsWith m text) h)⟩

theorem charOut_marker {m : Bytes} (h : markerAt (m ++ t) = some m) :
    charOut (m ++ t) = charOut t := by
  have hne : m ≠ [] := by
    rintro rfl
    exact absurd (markerAt_some h).1 (by decide)
  obtain ⟨b, m, rfl⟩ := List.exists_cons_of_ne_nil hne
  rw [List.cons_append] at h
  unfold charOut
  rw [List.cons_append, run_cons, removeCommentsCharStep_eq, h]
  simp [replace]

theorem Dropped.charOut_eq {rest : Bytes} (h : Dropped text rest) :
    charOut text = charOut rest := by
  induction h with
  | one hm => exact charOut_marker hm
  | more hm _ ih => exact (charOut_marker hm).trans ih

/-- **Induction along the loop**: a text begins with a byte that is kept or a marker. -/
theorem charOut_induction {P : Bytes → Prop} (nil : P [])
    (byte : ∀ {b t}, markerAt (b :: t) = none → P t → P (b :: t))
    (marker : ∀ {m t}, markerAt (m ++ t) = some m → P t → P (m ++ t)) : ∀ text, P text := by
  intro text
  induction hn : text.length using Nat.strong_induction_on generalizing text with
  | _ n ih =>
    subst hn
    cases text with
    | nil => exact nil
    | cons b t =>
      cases h : markerAt (b :: t) with
      | none => exact byte h (ih t.length (by simp) t rfl)
      | some m =>
        obtain ⟨hmem, rest, hrest⟩ := markerAt_some h
        have hpos : 0 < m.length := by
          have hall : ∀ m ∈ commentMarkers, 0 < m.length := by decide
          exact hall m hmem
        have hlength := congrArg List.length hrest
        rw [List.length_append] at hlength
        have hlt : rest.length < (b :: t).length := by omega
        rw [← hrest] at h ⊢
        exact marker h (ih rest.length hlt rest rfl)

theorem joint_length : ∀ d ∈ joints, d.length = 2 := by decide

theorem joint_mem : ∀ d ∈ joints, d ∈ commentMarkers := by decide

theorem Joins.exposes (h : Joins text) : ∃ d ∈ joints, d <:+: charOut text := by
  induction h with
  | @here b c text t hb hdropped hc hjoint =>
    refine ⟨[b, c], hjoint, ?_⟩
    rw [charOut_byte hb, hdropped.charOut_eq, charOut_byte hc]
    exact (List.prefix_append [b, c] (charOut t)).isInfix
  | byte hb _ ih =>
    obtain ⟨d, hd, hinfix⟩ := ih
    refine ⟨d, hd, ?_⟩
    rw [charOut_byte hb]
    exact hinfix.trans (List.suffix_cons _ _).isInfix
  | marker hm _ ih => rwa [charOut_marker hm]

theorem joint_infix_cons {l d : Bytes} (hd : d ∈ joints) (h : d <:+: prev.toList ++ x :: l) :
    (∃ p, prev = some p ∧ [p, x] ∈ joints) ∨ d <:+: (some x).toList ++ l := by
  cases prev with
  | none => exact .inr h
  | some p =>
    rcases List.infix_cons_iff.mp h with hpre | hinfix
    · left
      refine ⟨p, rfl, ?_⟩
      have heq := List.prefix_iff_eq_take.mp hpre
      rw [joint_length d hd] at heq
      have hpx : d = [p, x] := heq
      rwa [← hpx]
    · exact .inr hinfix

theorem markerAt_joint {c : UInt8} (t : Bytes) (h : [b, c] ∈ joints) :
    markerAt (b :: c :: t) ≠ none := by
  intro hnone
  exact List.find?_eq_none.mp hnone [b, c] (joint_mem _ h)
    (startsWith_iff.mpr (List.prefix_append [b, c] t))

/-- A marker that is left comes from a joint, or begins with the byte before the text. -/
theorem joins_of_exposed : ∀ (text : Bytes) (prev : Option UInt8),
    (∃ d ∈ joints, d <:+: prev.toList ++ charOut text) →
      (∃ p c t, prev = some p ∧ (text = c :: t ∨ Dropped text (c :: t)) ∧
        markerAt (c :: t) = none ∧ [p, c] ∈ joints) ∨ Joins text := by
  intro text
  induction text using charOut_induction with
  | nil =>
    rintro prev ⟨d, hd, h⟩
    have hle := h.length_le
    rw [joint_length d hd] at hle
    cases prev <;> simp [charOut] at hle
  | @byte b t hb ih =>
    rintro prev ⟨d, hd, h⟩
    rw [charOut_byte hb] at h
    rcases joint_infix_cons hd h with ⟨p, hprev, hjoint⟩ | hrest
    · exact .inl ⟨p, b, t, hprev, .inl rfl, hb, hjoint⟩
    · right
      rcases ih (some b) ⟨d, hd, hrest⟩ with ⟨p, c, t', hp, hgap, hc, hjoint⟩ | hjoins
      · obtain rfl := Option.some.inj hp
        rcases hgap with rfl | hgap
        · exact absurd hb (markerAt_joint t' hjoint)
        · exact .here hb hgap hc hjoint
      · exact .byte hb hjoins
  | marker hm ih =>
    intro prev h
    rw [charOut_marker hm] at h
    rcases ih prev h with ⟨p, c, t', hp, hgap, hc, hjoint⟩ | hjoins
    · left
      refine ⟨p, c, t', hp, .inr ?_, hc, hjoint⟩
      rcases hgap with rfl | hgap
      · exact .one hm
      · exact .more hm hgap
    · exact .inr (.marker hm hjoins)

theorem hash_not_mem_charOut : ∀ text : Bytes, 0x23 ∉ charOut text := by
  intro text
  induction text using charOut_induction with
  | nil => simp [charOut]
  | @byte b t hb ih =>
    rw [charOut_byte hb, List.mem_cons, not_or]
    refine ⟨?_, ih⟩
    rintro rfl
    exact List.find?_eq_none.mp hb [0x23] (by decide)
      (startsWith_iff.mpr (List.prefix_append [0x23] t))
  | marker hm ih => rwa [charOut_marker hm]

theorem removeCommentsChar_eq (value : Bytes) : (removeCommentsChar value).1 = charOut value := by
  unfold removeCommentsChar
  split
  · rename_i hnone
    have hbytes : ∀ c ∈ value, c ∉ [0x2F, 0x2A, 0x3C, 0x2D, 0x23] := by
      intro c hc hmem
      have hany : Strings.containsAny value [0x2F, 0x2A, 0x3C, 0x2D, 0x23] = true :=
        (Strings.containsAny_ascii (by decide +kernel) value).mpr ⟨c, hc, hmem⟩
      rw [hnone] at hany
      cases hany
    have hout : ∀ text : Bytes, (∀ c ∈ text, c ∉ [0x2F, 0x2A, 0x3C, 0x2D, 0x23]) →
        charOut text = text := by
      intro text
      induction text with
      | nil => exact fun _ => rfl
      | cons b t ih =>
        intro h
        have hb : markerAt (b :: t) = none := by
          rw [markerAt, List.find?_eq_none]
          intro m hm hstarts
          have hhead : ∀ m ∈ commentMarkers, ∀ x ∈ m.head?, x ∈ [0x2F, 0x2A, 0x3C, 0x2D, 0x23] := by
            decide +kernel
          obtain ⟨rest, hrest⟩ := startsWith_iff.mp hstarts
          cases m with
          | nil => exact absurd hm (by decide)
          | cons x m =>
            obtain ⟨rfl, -⟩ := List.cons.inj hrest
            exact h x List.mem_cons_self (hhead _ hm x rfl)
        rw [charOut_byte hb, ih (fun c hc => h c (List.mem_cons_of_mem b hc))]
    exact (hout value hbytes).symm
  · rfl

/-- **`removeCommentsChar` leaves a marker exactly if it makes one**: two bytes that it keeps become
neighbours when the markers between them are dropped, and they are `/*`, `*/` or `--`. -/
theorem removeCommentsChar_joins (value : Bytes) :
    (∃ m ∈ commentMarkers, m <:+: (removeCommentsChar value).1) ↔ Joins value := by
  rw [removeCommentsChar_eq]
  constructor
  · rintro ⟨m, hm, hin⟩
    have hjoint : m = [0x23] ∨ ∃ d ∈ joints, d <:+: m := by
      have hall : ∀ m ∈ commentMarkers, m = [0x23] ∨ ∃ d ∈ joints, d <:+: m := by decide +kernel
      exact hall m hm
    rcases hjoint with rfl | ⟨d, hd, hdm⟩
    · exact absurd (hin.subset List.mem_cons_self) (hash_not_mem_charOut value)
    · rcases joins_of_exposed value none ⟨d, hd, hdm.trans hin⟩ with ⟨p, _, _, hp, -⟩ | hjoins
      · cases hp
      · exact hjoins
  · intro h
    obtain ⟨d, hd, hinfix⟩ := h.exposes
    exact ⟨d, joint_mem d hd, hinfix⟩

/-- Two dashes between a slash and a star leave the marker `/*`. -/
theorem removeCommentsChar_makes_marker :
    ¬∀ value : Bytes, ∀ m ∈ commentMarkers, ¬m <:+: (removeCommentsChar value).1 := by
  intro h
  exact h [0x2F, 0x2D, 0x2D, 0x2A] openComment (by decide) (by decide +kernel)

end Coraza.Transformations
