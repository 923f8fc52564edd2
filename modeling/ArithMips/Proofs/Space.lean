import ArithMips.Statement
import Mathlib.Data.List.Induction
import Mathlib.Data.List.TakeWhile

/-!
# Normal space and statements

`Text.squeeze` makes runs of space single blanks by one pass over the characters.  It differs from
`Text.normalizeSpace` only in a blank that it may leave in front, which trimming removes.  Unlike the list of words,
it acts on each side of a character that is no space by itself, and so do the statements of a program
(`statements_append`): cutting at a semicolon before or after space is made normal gives the same statements.

Squeezing commutes with trimming (`trim_squeeze`), though trimming removes characters that squeezing leaves alone.  So
the statements of the normal text are the normal texts of the statements (`statements_normalizeSpace_eq_map`), and the
check for a last semicolon passes on both texts or on none (`checkSemicolons_normalizeSpace`).  What a declaration is
read as depends on the texts before and behind its first `=` alone (`Statement.parseDeclaration_append_cons`).
-/

namespace ArithMips.Text

/-- A run of space, possibly empty. -/
def IsGap (gap : Text) : Prop := ∀ c ∈ gap, isSpace c = true

theorem isGap_nil : IsGap [] := fun _ h => by cases h

theorem isGap_of_eq {gap : Text} (h : gap = [] ∨ gap = [' ']) : IsGap gap := by
  rcases h with rfl | rfl
  · exact isGap_nil
  · simp [IsGap, isSpace]

theorem semicolon_notMem_gap {gap : Text} (h : IsGap gap) : ';' ∉ gap := fun hc => by cases h _ hc

theorem forall_ne_of_notMem {c : Char} {s : Text} (h : c ∉ s) : ∀ d ∈ s, decide (d ≠ c) = true := by
  intro d hd
  rw [decide_eq_true_iff]
  rintro rfl
  exact h hd

theorem takeWhile_append_of_head {α : Type} {p : α → Bool} {w s : List α} (hw : ∀ c ∈ w, p c = true)
    (hs : ∀ c ∈ s.head?, p c = false) : (w ++ s).takeWhile p = w ∧ (w ++ s).dropWhile p = s := by
  rw [List.takeWhile_append_of_pos hw, List.dropWhile_append_of_pos hw]
  cases s with
  | nil => simp
  | cons c s => simp [hs c rfl]

/-- Puts a blank in front of a text that neither is empty nor starts with one. -/
def blank : Text → Text
  | [] => []
  | c :: s => if c = ' ' then c :: s else ' ' :: c :: s

/-- The text with every run of space made a single blank, and none at the end. -/
def squeeze : Text → Text
  | [] => []
  | c :: s => if isSpace c then blank (squeeze s) else c :: squeeze s

private theorem ne_blank_of_not_isSpace {c : Char} (h : isSpace c = false) : c ≠ ' ' := by
  rintro rfl
  cases h

@[simp] theorem blank_cons_of_ne {c : Char} (h : c ≠ ' ') (s : Text) : blank (c :: s) = ' ' :: c :: s := by
  simp [blank, h]

@[simp] theorem blank_blank (s : Text) : blank (blank s) = blank s := by
  cases s with
  | nil => rfl
  | cons c s => by_cases hc : c = ' ' <;> simp [blank, hc]

@[simp] theorem dropWhile_blank (s : Text) : (blank s).dropWhile (· = ' ') = s.dropWhile (· = ' ') := by
  cases s with
  | nil => rfl
  | cons c s => by_cases hc : c = ' ' <;> simp [blank, hc]

/-- What does not change with one blank in front does not change with all of them. -/
private theorem apply_dropWhile_blank {α : Type} {f : Text → α} (h : ∀ s, f (' ' :: s) = f s) (s : Text) :
    f (s.dropWhile (· = ' ')) = f s := by
  induction s with
  | nil => rfl
  | cons c s ih =>
    by_cases hc : c = ' '
    · rw [List.dropWhile_cons_of_pos (by simpa using hc), ih, hc, h]
    · rw [List.dropWhile_cons_of_neg (by simpa using hc)]

@[simp] theorem squeeze_cons_of_isSpace {c : Char} (h : isSpace c = true) (s : Text) :
    squeeze (c :: s) = blank (squeeze s) := by
  simp [squeeze, h]

@[simp] theorem squeeze_cons_of_not_isSpace {c : Char} (h : isSpace c = false) (s : Text) :
    squeeze (c :: s) = c :: squeeze s := by
  simp [squeeze, h]

/-! ### Squeezing and words -/

private theorem not_isSpace_of_mem_splitOnP {s w : Text} (hw : w ∈ s.splitOnP isSpace) :
    ∀ c ∈ w, isSpace c = false := by
  induction s generalizing w with
  | nil => simp_all
  | cons c s ih =>
    rw [List.splitOnP_cons_eq_if_modifyHead] at hw
    split at hw
    · rcases List.mem_cons.1 hw with rfl | hw
      · simp
      · exact ih hw
    · next hc =>
      rcases hs : s.splitOnP isSpace with _ | ⟨hd, tl⟩
      · exact absurd hs (List.splitOnP_ne_nil _ _)
      · rw [hs] at hw ih
        rcases List.mem_cons.1 hw with rfl | hw
        · have hhd := ih List.mem_cons_self
          simpa using ⟨by simpa using hc, hhd⟩
        · exact ih (List.mem_cons_of_mem _ hw)

private theorem words_of_splitOnP {s hd : Text} {tl : List Text} (h : s.splitOnP isSpace = hd :: tl) :
    ∀ v ∈ tl.filter (· ≠ []), v ≠ [] ∧ ∀ c ∈ v, isSpace c = false := by
  intro v hv
  obtain ⟨hv, hne⟩ := List.mem_filter.1 hv
  refine ⟨by simpa using hne, not_isSpace_of_mem_splitOnP (s := s) ?_⟩
  rw [h]
  exact List.mem_cons_of_mem _ hv

/-- A blank stands between two words. -/
private theorem intercalate_cons_words {w : Text} {ws : List Text}
    (hws : ∀ v ∈ ws, v ≠ [] ∧ ∀ c ∈ v, isSpace c = false) :
    List.intercalate [' '] (w :: ws) = w ++ blank (List.intercalate [' '] ws) := by
  cases ws with
  | nil => simp [List.intercalate, blank]
  | cons v ws =>
    obtain ⟨hne, hv⟩ := hws v List.mem_cons_self
    obtain ⟨c, v, rfl⟩ := List.exists_cons_of_ne_nil hne
    have hc : c ≠ ' ' := ne_blank_of_not_isSpace (hv c List.mem_cons_self)
    cases ws with
    | nil => simp [List.intercalate, hc]
    | cons u us => simp [List.intercalate, hc]

private theorem squeeze_eq_of_splitOnP {s hd : Text} {tl : List Text} (h : s.splitOnP isSpace = hd :: tl) :
    squeeze s = hd ++ blank (List.intercalate [' '] (tl.filter (· ≠ []))) := by
  induction s generalizing hd tl with
  | nil =>
    simp only [List.splitOnP_nil, List.cons.injEq] at h
    obtain ⟨rfl, rfl⟩ := h
    rfl
  | cons c s ih =>
    rw [List.splitOnP_cons_eq_if_modifyHead] at h
    rcases hs : s.splitOnP isSpace with _ | ⟨hd', tl'⟩
    · exact absurd hs (List.splitOnP_ne_nil _ _)
    · rw [hs] at h
      by_cases hc : isSpace c = true
      · rw [if_pos hc] at h
        cases h
        rw [squeeze_cons_of_isSpace hc, ih hs]
        -- The run of space goes on if the next piece is empty, and else a word follows.
        by_cases hhd : hd' = []
        · simp [hhd]
        · have hfilter : (hd' :: tl').filter (· ≠ []) = hd' :: tl'.filter (· ≠ []) := by simp [hhd]
          rw [hfilter, intercalate_cons_words (words_of_splitOnP hs)]
          rfl
      · rw [if_neg hc] at h
        cases h
        rw [squeeze_cons_of_not_isSpace (by simpa using hc), ih hs]
        rfl

theorem normalizeSpace_eq (s : Text) : normalizeSpace s = (squeeze s).dropWhile (· = ' ') := by
  induction s with
  | nil => simp [normalizeSpace, words, squeeze]
  | cons c s ih =>
    by_cases hc : isSpace c = true
    · have hwords : words (c :: s) = words s := by
        simp [words, List.splitOnP_cons_eq_if_modifyHead, hc]
      rw [normalizeSpace, hwords, ← normalizeSpace, ih, squeeze_cons_of_isSpace hc, dropWhile_blank]
    · have hc : isSpace c = false := by simpa using hc
      obtain ⟨hd, tl, hs⟩ := List.exists_cons_of_ne_nil (List.splitOnP_ne_nil isSpace s)
      have hwords : words (c :: s) = (c :: hd) :: tl.filter (· ≠ []) := by
        simp [words, List.splitOnP_cons_eq_if_modifyHead, hc, hs]
      rw [normalizeSpace, hwords, intercalate_cons_words (words_of_splitOnP hs), squeeze_cons_of_not_isSpace hc,
        squeeze_eq_of_splitOnP hs]
      simp [ne_blank_of_not_isSpace hc]

/-! ### Squeezing parts of a text -/

theorem squeeze_gap {gap : Text} (h : IsGap gap) : squeeze gap = [] := by
  induction gap with
  | nil => rfl
  | cons c gap ih =>
    rw [squeeze_cons_of_isSpace (h c List.mem_cons_self), ih fun d hd => h d (List.mem_cons_of_mem _ hd)]
    rfl

private theorem squeeze_word_append {w : Text} (h : ∀ c ∈ w, isSpace c = false) (s : Text) :
    squeeze (w ++ s) = w ++ squeeze s := by
  induction w with
  | nil => rfl
  | cons c w ih =>
    rw [List.cons_append, squeeze_cons_of_not_isSpace (h c List.mem_cons_self),
      ih fun d hd => h d (List.mem_cons_of_mem _ hd), List.cons_append]

/-- A character that is no space keeps the space before it, made a single blank, and separates the rest. -/
theorem squeeze_append_cons (s : Text) {c : Char} (hc : isSpace c = false) (t : Text) :
    ∃ gap, (gap = [] ∨ gap = [' ']) ∧ squeeze (s ++ c :: t) = squeeze s ++ gap ++ c :: squeeze t := by
  induction s with
  | nil => exact ⟨[], .inl rfl, squeeze_cons_of_not_isSpace hc t⟩
  | cons d s ih =>
    obtain ⟨gap, hgap, heq⟩ := ih
    by_cases hd : isSpace d = true
    · rw [List.cons_append, squeeze_cons_of_isSpace hd, squeeze_cons_of_isSpace hd, heq]
      rcases hs : squeeze s with _ | ⟨e, s'⟩
      · -- Only space came before the character.
        refine ⟨[' '], .inr rfl, ?_⟩
        have hc' := ne_blank_of_not_isSpace hc
        rcases hgap with rfl | rfl <;> simp [blank, hc']
      · refine ⟨gap, hgap, ?_⟩
        by_cases he : e = ' ' <;> simp [blank, he]
    · have hd : isSpace d = false := by simpa using hd
      refine ⟨gap, hgap, ?_⟩
      rw [List.cons_append, squeeze_cons_of_not_isSpace hd, squeeze_cons_of_not_isSpace hd, heq]
      rfl

/-- The same with the exact blank, for a run of space at the start. -/
private theorem squeeze_gap_append {gap : Text} (h : IsGap gap) {c : Char} (hc : isSpace c = false) (t : Text) :
    squeeze (gap ++ c :: t) = (if gap = [] then [] else [' ']) ++ c :: squeeze t := by
  induction gap with
  | nil => exact squeeze_cons_of_not_isSpace hc t
  | cons d gap ih =>
    have hgap : IsGap gap := fun e he => h e (List.mem_cons_of_mem _ he)
    rw [List.cons_append, squeeze_cons_of_isSpace (h d List.mem_cons_self), ih hgap]
    by_cases hnil : gap = [] <;> simp [hnil, blank, ne_blank_of_not_isSpace hc]

theorem squeeze_gap_word_append {gap w : Text} (hgap : IsGap gap) (hne : w ≠ [])
    (hw : ∀ c ∈ w, isSpace c = false) (s : Text) :
    squeeze (gap ++ w ++ s) = (if gap = [] then [] else [' ']) ++ w ++ squeeze s := by
  obtain ⟨c, w, rfl⟩ := List.exists_cons_of_ne_nil hne
  rw [List.append_assoc, List.cons_append, squeeze_gap_append hgap (hw c List.mem_cons_self),
    squeeze_word_append fun d hd => hw d (List.mem_cons_of_mem _ hd), List.append_assoc, List.cons_append]

theorem isGap_ite (p : Prop) [Decidable p] : IsGap (if p then [] else [' ']) := by
  split <;> simp [IsGap, isSpace]

theorem mem_squeeze {s : Text} {c : Char} (hc : c ≠ ' ') (h : c ∈ squeeze s) : c ∈ s := by
  induction s with
  | nil => cases h
  | cons d s ih =>
    by_cases hd : isSpace d = true
    · rw [squeeze_cons_of_isSpace hd] at h
      refine List.mem_cons_of_mem _ (ih ?_)
      rcases hs : squeeze s with _ | ⟨e, t⟩
      · rw [hs] at h
        cases h
      · rw [hs, blank] at h
        split at h
        · exact h
        · exact (List.mem_cons.1 h).resolve_left hc
    · rw [squeeze_cons_of_not_isSpace (by simpa using hd)] at h
      rcases List.mem_cons.1 h with rfl | h
      · exact List.mem_cons_self
      · exact List.mem_cons_of_mem _ (ih h)

/-! ### Trimming -/

private theorem trim_cons_of_isWhite {c : Char} (hc : isWhite c = true) (s : Text) : trim (c :: s) = trim s := by
  rw [trim, trimStart, List.dropWhile_cons_of_pos hc, trim, trimStart]

private theorem trimEnd_append_white {s white : Text} (h : ∀ c ∈ white, isWhite c = true) :
    trimEnd (s ++ white) = trimEnd s := by
  rw [trimEnd, List.reverse_append, List.dropWhile_append_of_pos fun c hc => h c (List.mem_reverse.1 hc), trimEnd]

private theorem trim_append_singleton {c : Char} (hc : isWhite c = true) (s : Text) : trim (s ++ [c]) = trim s := by
  rw [trim, trimStart, List.dropWhile_append, trim, trimStart]
  by_cases hs : s.dropWhile isWhite = []
  · simp [hs, hc, trimEnd]
  · rw [if_neg (by simpa using hs), trimEnd_append_white (by simpa using hc)]

theorem trim_gap_append {gap : Text} (h : IsGap gap) (s : Text) : trim (gap ++ s) = trim s := by
  induction gap with
  | nil => rfl
  | cons c gap ih =>
    rw [List.cons_append, trim_cons_of_isWhite (isWhite_of_isSpace (h c List.mem_cons_self))]
    exact ih fun d hd => h d (List.mem_cons_of_mem _ hd)

private theorem trim_gap {gap : Text} (h : IsGap gap) : trim gap = [] := by
  rw [← List.append_nil gap, trim_gap_append h]
  rfl

theorem trim_eq_self {s : Text} (hhead : ∀ c ∈ s.head?, isWhite c = false)
    (hlast : ∀ c ∈ s.getLast?, isWhite c = false) : trim s = s := by
  have hstart : trimStart s = s := by
    cases s with
    | nil => rfl
    | cons c s => rw [trimStart, List.dropWhile_cons_of_neg (by simp [hhead c rfl])]
  rw [trim, hstart, trimEnd]
  rcases hr : s.reverse with _ | ⟨c, r⟩
  · simpa using hr.symm
  · have hc : isWhite c = false := hlast c (by rw [← List.head?_reverse, hr]; rfl)
    rw [List.dropWhile_cons_of_neg (by simp [hc]), ← hr, List.reverse_reverse]

private theorem not_isWhite_head_trim {s : Text} : ∀ c ∈ (trim s).head?, isWhite c = false := by
  intro c hc
  -- Trimming at the end leaves the first character, if it leaves any.
  have hprefix : trim s <+: trimStart s := by
    rw [trim, trimEnd, ← List.reverse_suffix, List.reverse_reverse]
    exact List.dropWhile_suffix _
  obtain ⟨rest, hrest⟩ := hprefix
  have hfirst : (trimStart s).head? = some c := by rw [← hrest, List.head?_append, hc, Option.some_or]
  have hhead := List.head?_dropWhile_not isWhite s
  rw [← trimStart, hfirst] at hhead
  exact hhead

theorem not_isWhite_getLast_trim {s : Text} : ∀ c ∈ (trim s).getLast?, isWhite c = false := by
  intro c hc
  have hhead := List.head?_dropWhile_not isWhite (trimStart s).reverse
  rw [trim, trimEnd, List.getLast?_reverse] at hc
  rw [hc] at hhead
  exact hhead

private theorem trim_trim (s : Text) : trim (trim s) = trim s :=
  trim_eq_self not_isWhite_head_trim not_isWhite_getLast_trim

theorem not_isSpace_of_not_isWhite {c : Char} (h : isWhite c = false) : isSpace c = false := by
  refine Bool.eq_false_iff.2 fun hc => ?_
  rw [isWhite_of_isSpace hc] at h
  cases h

/-! ### Squeezing and trimming -/

theorem trimStart_squeeze (s : Text) : trimStart (squeeze s) = squeeze (trimStart s) := by
  have hblank : ∀ t : Text, trimStart (blank t) = trimStart t := by
    intro t
    cases t with
    | nil => rfl
    | cons c t =>
      rw [blank]
      split
      · rfl
      · exact List.dropWhile_cons_of_pos (by decide)
  induction s with
  | nil => rfl
  | cons c s ih =>
    by_cases hwhite : isWhite c = true
    · have htrim : trimStart (c :: s) = trimStart s := List.dropWhile_cons_of_pos hwhite
      rw [htrim, ← ih]
      by_cases hspace : isSpace c = true
      · rw [squeeze_cons_of_isSpace hspace, hblank]
      · rw [squeeze_cons_of_not_isSpace (by simpa using hspace)]
        exact List.dropWhile_cons_of_pos hwhite
    · have hspace := not_isSpace_of_not_isWhite (by simpa using hwhite)
      have hself : ∀ t : Text, trimStart (c :: t) = c :: t := fun t => List.dropWhile_cons_of_neg hwhite
      rw [squeeze_cons_of_not_isSpace hspace, hself, hself, squeeze_cons_of_not_isSpace hspace]

private theorem trimEnd_append_singleton_of_not_isWhite {c : Char} (h : isWhite c = false) (s : Text) :
    trimEnd (s ++ [c]) = s ++ [c] := by
  rw [trimEnd, List.reverse_append, List.reverse_singleton, List.singleton_append,
    List.dropWhile_cons_of_neg (by simp [h]), List.reverse_cons, List.reverse_reverse]

private theorem squeeze_append_gap (s : Text) {gap : Text} (h : IsGap gap) : squeeze (s ++ gap) = squeeze s := by
  induction s with
  | nil => exact squeeze_gap h
  | cons c s ih => rw [List.cons_append, squeeze, squeeze, ih]

private theorem trimEnd_squeeze (s : Text) : trimEnd (squeeze s) = squeeze (trimEnd s) := by
  induction s using List.reverseRecOn with
  | nil => rfl
  | append_singleton s c ih =>
    by_cases hspace : isSpace c = true
    · have hgap : IsGap [c] := by simpa [IsGap] using hspace
      rw [squeeze_append_gap s hgap, ih, trimEnd_append_white (by simpa using isWhite_of_isSpace hspace)]
    · obtain ⟨gap, hgap, hsqueeze⟩ := squeeze_append_cons s (by simpa using hspace : isSpace c = false) []
      by_cases hwhite : isWhite c = true
      · rw [hsqueeze, List.append_assoc, trimEnd_append_white, ih, trimEnd_append_white (by simpa using hwhite)]
        intro d hd
        rcases List.mem_append.1 hd with hd | hd
        · exact isWhite_of_isSpace (isGap_of_eq hgap d hd)
        · rw [List.mem_singleton.1 hd]
          exact hwhite
      · rw [trimEnd_append_singleton_of_not_isWhite (by simpa using hwhite), hsqueeze]
        exact trimEnd_append_singleton_of_not_isWhite (by simpa using hwhite) _

theorem trim_squeeze (s : Text) : trim (squeeze s) = squeeze (trim s) := by
  rw [trim, trimStart_squeeze, trimEnd_squeeze, trim]

private theorem squeeze_squeeze (s : Text) : squeeze (squeeze s) = squeeze s := by
  induction s with
  | nil => rfl
  | cons c s ih =>
    by_cases hc : isSpace c = true
    · rw [squeeze_cons_of_isSpace hc]
      rcases hs : squeeze s with _ | ⟨d, t⟩
      · rfl
      · rw [hs] at ih
        by_cases hd : d = ' '
        · rw [hd] at ih ⊢
          exact ih
        · rw [blank_cons_of_ne hd, squeeze_cons_of_isSpace (by decide), ih, blank_cons_of_ne hd]
    · rw [squeeze_cons_of_not_isSpace (by simpa using hc), squeeze_cons_of_not_isSpace (by simpa using hc), ih]

private theorem normalizeSpace_squeeze (s : Text) : normalizeSpace (squeeze s) = normalizeSpace s := by
  rw [normalizeSpace_eq, normalizeSpace_eq, squeeze_squeeze]

theorem normalizeSpace_normalizeSpace (s : Text) : s.normalizeSpace.normalizeSpace = s.normalizeSpace := by
  have hblank : ∀ t : Text, normalizeSpace (' ' :: t) = normalizeSpace t := by
    intro t
    rw [normalizeSpace_eq, normalizeSpace_eq, squeeze_cons_of_isSpace (by decide), dropWhile_blank]
  rw [normalizeSpace_eq s, apply_dropWhile_blank hblank, normalizeSpace_squeeze, normalizeSpace_eq]

theorem exists_of_squeeze_eq_cons {s t : Text} {c : Char} (h : squeeze s = c :: t) (hc : c ≠ ' ') :
    ∃ u : Text, s = c :: u ∧ squeeze u = t := by
  cases s with
  | nil => cases h
  | cons d s =>
    by_cases hd : isSpace d = true
    · rw [squeeze_cons_of_isSpace hd] at h
      rcases hs : squeeze s with _ | ⟨e, u⟩
      · rw [hs] at h
        cases h
      · rw [hs, blank] at h
        split at h
        · next he => exact absurd ((List.cons.inj h).1.symm.trans he) hc
        · exact absurd (List.cons.inj h).1.symm hc
    · rw [squeeze_cons_of_not_isSpace (by simpa using hd)] at h
      obtain ⟨rfl, rfl⟩ := List.cons.inj h
      exact ⟨s, rfl, rfl⟩

/-- Space in front of a text becomes a blank if it does not reach the end. -/
theorem exists_squeeze_eq_blank_cons {c : Char} (hc : isSpace c = true) {s : Text}
    (hlast : ∀ d ∈ (c :: s).getLast?, isWhite d = false) : ∃ t, squeeze (c :: s) = ' ' :: t := by
  induction s generalizing c with
  | nil =>
    have hwhite := hlast c rfl
    rw [isWhite_of_isSpace hc] at hwhite
    cases hwhite
  | cons d s ih =>
    rw [squeeze_cons_of_isSpace hc]
    by_cases hd : isSpace d = true
    · obtain ⟨t, ht⟩ := ih hd (by simpa using hlast)
      exact ⟨t, by rw [ht]; rfl⟩
    · have hne : d ≠ ' ' := by
        rintro rfl
        exact hd (by decide)
      exact ⟨d :: squeeze s, by rw [squeeze_cons_of_not_isSpace (by simpa using hd), blank_cons_of_ne hne]⟩

/-- A trimmed text is squeezed to its normal text, which no blank starts. -/
theorem squeeze_trim (s : Text) : squeeze (trim s) = normalizeSpace (trim s) := by
  have hhead := @not_isWhite_head_trim s
  rw [normalizeSpace_eq]
  rcases hs : trim s with _ | ⟨c, t⟩
  · rfl
  · have hspace := not_isSpace_of_not_isWhite (hhead c (by rw [hs]; rfl))
    have hc : c ≠ ' ' := by
      rintro rfl
      cases hspace
    rw [squeeze_cons_of_not_isSpace hspace, List.dropWhile_cons_of_neg (by simpa using hc)]

theorem squeeze_trim_ne_nil {s : Text} (h : trim s ≠ []) : squeeze (trim s) ≠ [] := by
  have hhead := @not_isWhite_head_trim s
  rcases hs : trim s with _ | ⟨c, t⟩
  · exact absurd hs h
  · simp [not_isSpace_of_not_isWhite (hhead c (by rw [hs]; rfl))]

theorem trim_normalizeSpace (s : Text) : trim (normalizeSpace s) = normalizeSpace (trim s) := by
  rw [normalizeSpace_eq, apply_dropWhile_blank (trim_cons_of_isWhite (by decide)), trim_squeeze, squeeze_trim]

/-! ### Cutting at semicolons -/

private theorem splitOn_append_singleton {p c : Char} (hc : c ≠ p) (s : Text) :
    ∃ init last, s.splitOn p = init ++ [last] ∧ (s ++ [c]).splitOn p = init ++ [last ++ [c]] := by
  induction s with
  | nil => exact ⟨[], [], rfl, by simp [List.splitOn_cons_eq_if_modifyHead, hc]⟩
  | cons d s ih =>
    obtain ⟨init, last, hs, hsc⟩ := ih
    by_cases hd : d = p
    · exact ⟨[] :: init, last, by simp [List.splitOn_cons_eq_if_modifyHead, hd, hs],
        by simp [List.splitOn_cons_eq_if_modifyHead, hd, hsc]⟩
    · rcases init with _ | ⟨first, init⟩
      · exact ⟨[], d :: last, by simp [List.splitOn_cons_eq_if_modifyHead, hd, hs],
          by simp [List.splitOn_cons_eq_if_modifyHead, hd, hsc]⟩
      · exact ⟨(d :: first) :: init, last, by simp [List.splitOn_cons_eq_if_modifyHead, hd, hs],
          by simp [List.splitOn_cons_eq_if_modifyHead, hd, hsc]⟩

private theorem statements_append_cons (p q : Text) : statements (p ++ ';' :: q) = statements p ++ statements q := by
  rw [statements, trimmedPieces, List.splitOn_append_cons_self, List.map_append, List.filter_append]
  rfl

private theorem statements_append_blank (s : Text) : statements (s ++ [' ']) = statements s := by
  obtain ⟨init, last, hs, hsc⟩ := splitOn_append_singleton (p := ';') (c := ' ') (by decide) s
  simp only [statements, trimmedPieces]
  rw [hs, hsc, List.map_append, List.map_append, List.map_singleton, List.map_singleton,
    trim_append_singleton (by decide)]

private theorem statements_cons_blank (s : Text) : statements (' ' :: s) = statements s := by
  obtain ⟨first, rest, hs⟩ := List.exists_cons_of_ne_nil (List.splitOn_ne_nil ';' s)
  have hcons : (' ' :: s).splitOn ';' = (' ' :: first) :: rest := by
    rw [List.splitOn_cons_eq_if_modifyHead, hs]
    rfl
  simp only [statements, trimmedPieces]
  rw [hs, hcons, List.map_cons, List.map_cons, trim_cons_of_isWhite (by decide)]

private theorem statements_dropWhile (s : Text) : statements (s.dropWhile (· = ' ')) = statements s :=
  apply_dropWhile_blank statements_cons_blank s

theorem statements_normalizeSpace (s : Text) : s.normalizeSpace.statements = s.squeeze.statements := by
  rw [normalizeSpace_eq, statements_dropWhile]

/-- The statements of a program are those before a semicolon and those behind it. -/
theorem statements_append (p q : Text) :
    (p ++ ';' :: q).normalizeSpace.statements = p.normalizeSpace.statements ++ q.normalizeSpace.statements := by
  simp only [statements_normalizeSpace]
  obtain ⟨gap, hgap, heq⟩ := squeeze_append_cons p (c := ';') (by decide) q
  rw [heq, statements_append_cons]
  rcases hgap with rfl | rfl
  · rw [List.append_nil]
  · rw [statements_append_blank]

theorem statements_of_notMem {s : Text} (h : ';' ∉ s) : s.statements = [s.trim].filter (· ≠ []) := by
  rw [statements, trimmedPieces, List.splitOn_eq_singleton h]
  rfl

theorem statements_of_semicolon_notMem {s : Text} (h : ';' ∉ s) (hne : s.trim ≠ []) : s.statements = [s.trim] := by
  rw [statements_of_notMem h]
  simp [hne]

/-- Statements are trimmed and not empty. -/
theorem trim_of_mem_statements {program s : Text} (h : s ∈ program.statements) : s.trim = s ∧ s ≠ [] := by
  obtain ⟨hmem, hne⟩ := List.mem_filter.1 h
  obtain ⟨piece, -, rfl⟩ := List.mem_map.1 hmem
  exact ⟨trim_trim piece, by simpa using hne⟩

theorem afterLastSemicolon_of_notMem {s : Text} (h : ';' ∉ s) : afterLastSemicolon s = s := by
  have hne : ';' ∉ s.reverse := fun hc => h (List.mem_reverse.1 hc)
  have hall : s.reverse.takeWhile (· ≠ ';') = s.reverse := by
    rw [← List.append_nil s.reverse, List.takeWhile_append_of_pos (forall_ne_of_notMem hne)]
    rfl
  rw [afterLastSemicolon, hall, List.reverse_reverse]

theorem afterLastSemicolon_append (p q : Text) : afterLastSemicolon (p ++ ';' :: q) = afterLastSemicolon q := by
  have hrev : (p ++ ';' :: q).reverse = q.reverse ++ ';' :: p.reverse := by simp
  rw [afterLastSemicolon, afterLastSemicolon, hrev, List.takeWhile_append]
  split
  · next hlen =>
    rw [List.takeWhile_cons_of_neg (by simp), List.append_nil]
    exact congrArg _ (List.IsPrefix.eq_of_length (List.takeWhile_prefix _) hlen).symm
  · rfl

theorem checkSemicolons_of_notMem {s : Text} (h : ';' ∉ s) :
    checkSemicolons s = if s.trim = [] then .ok () else .error .missingSemicolon := by
  rw [checkSemicolons, afterLastSemicolon_of_notMem h]

theorem checkSemicolons_gap {gap : Text} (h : IsGap gap) : checkSemicolons gap = .ok () := by
  rw [checkSemicolons_of_notMem (semicolon_notMem_gap h), if_pos (trim_gap h)]

theorem checkSemicolons_append (p q : Text) : checkSemicolons (p ++ ';' :: q) = checkSemicolons q := by
  rw [checkSemicolons, checkSemicolons, afterLastSemicolon_append]

/-- A text without semicolon, or two texts with a semicolon between them. -/
theorem semicolon_induction {P : Text → Prop} (piece : ∀ s, ';' ∉ s → P s)
    (append : ∀ s p, P s → P p → P (s ++ ';' :: p)) (p : Text) : P p := by
  by_cases hp : ';' ∈ p
  · obtain ⟨s, q, hsplit, hs⟩ := List.eq_append_cons_of_mem hp
    rw [hsplit]
    exact append s q (piece s hs) (semicolon_induction piece append q)
  · exact piece p hp
termination_by p.length
decreasing_by
  rw [hsplit, List.length_append, List.length_cons]
  omega

/-- The statements of the normal text are the normal texts of the statements. -/
theorem statements_normalizeSpace_eq_map (p : Text) :
    p.normalizeSpace.statements = p.statements.map normalizeSpace := by
  induction p using semicolon_induction with
  | piece s hs =>
    have hs' : ';' ∉ squeeze s := fun h => hs (mem_squeeze (by decide) h)
    rw [statements_normalizeSpace, statements_of_notMem hs, statements_of_notMem hs', trim_squeeze]
    by_cases hnil : trim s = []
    · simp [hnil, squeeze]
    · have hne := squeeze_trim_ne_nil hnil
      rw [squeeze_trim] at hne ⊢
      simp [hnil, hne]
  | append s p ihs ihp => rw [statements_append, statements_append_cons, List.map_append, ihs, ihp]

private theorem checkSemicolons_cons_blank (s : Text) : checkSemicolons (' ' :: s) = checkSemicolons s := by
  by_cases hs : ';' ∈ s
  · obtain ⟨p, q, rfl⟩ := List.append_of_mem hs
    rw [← List.cons_append, checkSemicolons_append, checkSemicolons_append]
  · rw [checkSemicolons_of_notMem hs, checkSemicolons_of_notMem (by simpa using hs), trim_cons_of_isWhite (by decide)]

private theorem checkSemicolons_squeeze (p : Text) : checkSemicolons p.squeeze = checkSemicolons p := by
  induction p using semicolon_induction with
  | piece s hs =>
    have hs' : ';' ∉ squeeze s := fun h => hs (mem_squeeze (by decide) h)
    rw [checkSemicolons_of_notMem hs, checkSemicolons_of_notMem hs', trim_squeeze]
    by_cases hnil : trim s = []
    · rw [hnil]
      rfl
    · rw [if_neg hnil, if_neg (squeeze_trim_ne_nil hnil)]
  | append s p _ ihp =>
    obtain ⟨gap, -, hsqueeze⟩ := squeeze_append_cons s (c := ';') (by decide) p
    rw [hsqueeze, checkSemicolons_append, checkSemicolons_append, ihp]

theorem checkSemicolons_normalizeSpace (p : Text) : checkSemicolons p.normalizeSpace = checkSemicolons p := by
  rw [normalizeSpace_eq, apply_dropWhile_blank checkSemicolons_cons_blank, checkSemicolons_squeeze]

end ArithMips.Text

/-! ### Cutting at the assignment -/

namespace ArithMips.Statement

open Text (isSpace)

theorem parseDeclaration_of_notMem {s : Text} (h : '=' ∉ s) (limits : Limits) :
    parseDeclaration limits s = .error .missingAssignment := by
  rw [parseDeclaration, List.dropWhile_eq_nil_iff.2 (Text.forall_ne_of_notMem h)]

/-- What the text up to the first `=` and the text behind it are read as. -/
theorem parseDeclaration_append_cons {target : Text} (h : '=' ∉ target) (limits : Limits) (value : Text) :
    parseDeclaration limits (target ++ '=' :: value) =
      if !startsName (target.takeWhile (!isSpace ·)) then .error (.invalidName (target.takeWhile (!isSpace ·)))
      else if limits.identifierLength < (target.takeWhile (!isSpace ·)).length then
        .error (.identifierTooLong (target.takeWhile (!isSpace ·)) limits.identifierLength)
      else .ok (.declaration (target.takeWhile (!isSpace ·)) value.trim) := by
  obtain ⟨htake, hdrop⟩ := Text.takeWhile_append_of_head (Text.forall_ne_of_notMem h) (s := '=' :: value) (by simp)
  rw [parseDeclaration, htake, hdrop]

end ArithMips.Statement
