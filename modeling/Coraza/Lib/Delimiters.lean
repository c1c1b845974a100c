import Coraza.Lib.Rewriting

/-!
# Delimiters in a text

A reader that looks for one of several delimiters stops at the first place where one of them
begins.  `Free` says that none of them occurs in a text and `NoneAt` that none begins where the text
begins.

`exists_first` splits a text at its first delimiter.  If no delimiter begins inside another one
(`Apart`), the reader does not stop early: what comes before the first delimiter is `Free`, and
none begins at any place of it (`Free.noneAt`).  For a loop that treats all elements alike until a
delimiter comes, this is `run_until`, and `run_free` if none comes.  `infix_append_cons` is for
delimiters in a text that was put together around another element.
-/

namespace Delimiters

open List

variable {α : Type}

def Free (ds : List (List α)) (text : List α) : Prop := ∀ d ∈ ds, ¬d <:+: text

/-- None of the delimiters begins where the text begins. -/
def NoneAt (ds : List (List α)) (text : List α) : Prop := ∀ d ∈ ds, ¬d <+: text

/-- No delimiter begins inside another one, nor inside itself. -/
def Apart (ds : List (List α)) : Prop :=
  ∀ d ∈ ds, ∀ e ∈ ds, ∀ k < d.length, 0 < k → ¬d.drop k <+: e ∧ ¬e <+: d.drop k

variable {ds : List (List α)} {u : List α}

theorem free_nil (h : [] ∉ ds) : Free ds [] := by
  intro d hd hinfix
  rw [List.infix_nil.mp hinfix] at hd
  exact h hd

theorem free_cons {b : α} {t : List α} : Free ds (b :: t) ↔ NoneAt ds (b :: t) ∧ Free ds t := by
  simp only [Free, infix_cons_iff, not_or]
  exact ⟨fun h => ⟨fun d hd => (h d hd).1, fun d hd => (h d hd).2⟩,
    fun h d hd => ⟨h.1 d hd, h.2 d hd⟩⟩

theorem NoneAt.mono {t : List α} (h : NoneAt ds u) (ht : t <+: u) : NoneAt ds t :=
  fun d hd hpre => h d hd (hpre.trans ht)

/-- **A text has no delimiter, or a first one.** -/
theorem exists_first (ds : List (List α)) (hne : [] ∉ ds) (text : List α) :
    Free ds text ∨ ∃ pre, ∃ d ∈ ds, ∃ post, text = pre ++ (d ++ post) ∧ Free ds pre := by
  induction text with
  | nil => exact .inl (free_nil hne)
  | cons b t ih =>
    by_cases hat : NoneAt ds (b :: t)
    · rcases ih with hfree | ⟨pre, d, hd, post, rfl, hpre⟩
      · exact .inl (free_cons.mpr ⟨hat, hfree⟩)
      · refine .inr ⟨b :: pre, d, hd, post, rfl, free_cons.mpr ⟨hat.mono ?_, hpre⟩⟩
        exact prefix_append (b :: pre) (d ++ post)
    · unfold NoneAt at hat
      push Not at hat
      obtain ⟨d, hd, post, hpost⟩ := hat
      exact .inr ⟨[], d, hd, post, hpost.symm, free_nil hne⟩

/-- **No delimiter begins before the first one.** -/
theorem Free.noneAt (hapart : Apart ds) {v e : List α} (hfree : Free ds (u ++ v)) (hv : v ≠ [])
    (he : e ∈ ds) (post : List α) : NoneAt ds (v ++ (e ++ post)) := by
  intro d hd hpre
  rcases prefix_or_prefix_of_prefix hpre (prefix_append v (e ++ post)) with hdv | hvd
  · exact hfree d hd (hdv.isInfix.trans (suffix_append u v).isInfix)
  · -- the delimiter goes on beyond `v`, so a part of it begins where `e` begins
    obtain ⟨w, rfl⟩ := hvd
    have hw : w <+: e ++ post := (prefix_append_right_inj v).mp hpre
    by_cases hwnil : w = []
    · subst hwnil
      rw [append_nil] at hd
      exact hfree v hd (suffix_append u v).isInfix
    · have hlen : v.length < (v ++ w).length := by
        simpa using List.length_pos_iff.mpr hwnil
      obtain ⟨hwe, hew⟩ := hapart _ hd e he v.length hlen (List.length_pos_iff.mpr hv)
      rw [drop_left] at hwe hew
      rcases prefix_or_prefix_of_prefix hw (prefix_append e post) with h | h
      · exact hwe h
      · exact hew h

theorem Free.noneAt_suffix {v : List α} (hfree : Free ds (u ++ v)) : NoneAt ds v :=
  fun d hd hpre => hfree d hd (hpre.isInfix.trans (suffix_append u v).isInfix)

section

open Rewriting

variable {σ : Type} {step : σ → α → List α → Piece α σ} {finish : σ → List α} {state : σ}
  {w : α → List α} {ds : List (List α)}
  (hstep : ∀ b t, NoneAt ds (b :: t) → (step state b t).written = w b ∧
    (step state b t).further = 0 ∧ (step state b t).state = state)

include hstep

/-- **A loop up to the first delimiter.** -/
theorem run_until (hapart : Apart ds) {pre e : List α} (hfree : Free ds pre) (he : e ∈ ds)
    (post : List α) :
    (run step finish state (pre ++ (e ++ post))).1
      = pre.flatMap w ++ (run step finish state (e ++ post)).1 := by
  refine run_each pre (fun u b v hsplit => hstep b _ ?_)
  subst hsplit
  exact hfree.noneAt hapart (cons_ne_nil b v) he post

theorem run_free {text : List α} (hfree : Free ds text) :
    (run step finish state text).1 = text.flatMap w ++ finish state := by
  have heach : (run step finish state (text ++ [])).1 = text.flatMap w ++ finish state := by
    refine run_each text (fun u b v hsplit => ?_)
    subst hsplit
    rw [append_nil]
    exact hstep b v hfree.noneAt_suffix
  rwa [append_nil] at heach

end

theorem prefix_of_prefix_append_cons {d a b : List α} {x : α} (hx : x ∉ d)
    (h : d <+: a ++ x :: b) : d <+: a := by
  have hax : a ++ [x] <+: a ++ x :: b := ⟨b, by simp⟩
  rcases prefix_or_prefix_of_prefix h hax with hd | hd
  · rcases List.prefix_concat_iff.mp hd with rfl | hda
    · simp at hx
    · exact hda
  · exact absurd (hd.subset (by simp)) hx

theorem infix_append_cons {d b : List α} {x : α} (hx : x ∉ d) {a : List α} :
    d <:+: a ++ x :: b → d <:+: a ∨ d <:+: b := by
  induction a with
  | nil =>
    intro h
    rcases List.infix_cons_iff.mp h with hpre | hinfix
    · exact .inl (prefix_of_prefix_append_cons (a := []) hx hpre).isInfix
    · exact .inr hinfix
  | cons y a ih =>
    intro h
    rcases List.infix_cons_iff.mp h with hpre | hinfix
    · exact .inl (prefix_of_prefix_append_cons (a := y :: a) hx hpre).isInfix
    · exact (ih hinfix).imp_left (fun hd => hd.trans (suffix_cons y a).isInfix)

end Delimiters
