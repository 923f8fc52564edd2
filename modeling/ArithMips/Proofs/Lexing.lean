import ArithMips.Proofs.Diagnostics

/-!
# The cut of a text into lexemes

`Text.Factors s ls` says, without the scanner, how a text is cut into lexemes: put together they are the text, and each
of them has its place between what stands before and behind it (`Lexeme.Stands`).  A word is a run of word characters
that cannot be made longer on either side; a numeral is such a run of digits, with the `-` directly before it if there
is one, and it does not continue a word.

There is exactly one such cut, the one that `Text.lexemes` makes (`Text.factors_iff`).  For this it is enough to look
behind each lexeme (`Lexeme.Ends`): what stands there decides where it ends, and with it the next one starts.  The
scan of a text then depends on its cut alone (`Text.scan_factors`): it yields the tokens of the lexemes, or the error
of the first lexeme that is rejected.
-/

namespace ArithMips

namespace Text

/-- Whether a text is a run of digits. -/
def isDigits (s : Text) : Bool := !s.isEmpty && s.all Char.isDigit

/-- Whether a run between two texts has a property and cannot be made longer, on either side, with it. -/
structure IsMaximal (p : Text → Bool) (before run after : Text) : Prop where
  holds : p run = true
  maximal : ∀ b a, b <:+ before → a <+: after → p (b ++ run ++ a) = true → b = [] ∧ a = []

end Text

namespace Lexeme

/-- Whether a lexeme makes a token; space and unknown characters do not. -/
def isSignificant : Lexeme → Bool
  | space _ | unknown _ => false
  | _ => true

/-- The sign of a numeral. -/
def sign (negative : Bool) : Text := if negative then ['-'] else []

/-- Whether a lexeme has its place between two texts. -/
def Stands (before after : Text) : Lexeme → Prop
  | space c => Text.isSpace c = true
  | numeral negative digits =>
    Text.IsMaximal Text.isDigits (before ++ sign negative) digits after ∧
      (∀ x, x <:+ before ++ sign negative → Text.isIdentifier x = false) ∧
      (negative = false → before.getLast? ≠ some '-')
  | word x => Text.IsMaximal Text.isIdentifier before x after
  | operator _ | lparen | rparen => True
  | unknown c => Text.isKnown c = false

/-- Whether a lexeme is well formed and ends where a text starts. -/
def Ends (after : Text) : Lexeme → Prop
  | space c => Text.isSpace c = true
  | numeral _ digits => digits.isDigits = true ∧ after.startsWithDigit = false
  | word x => x.isIdentifier = true ∧ ∀ c ∈ after.head?, Text.isWordChar c = false
  | operator op => op = .sub → after.startsWithDigit = false
  | lparen | rparen => True
  | unknown c => Text.isKnown c = false

theorem text_numeral (negative : Bool) (digits : Text) : (numeral negative digits).text = sign negative ++ digits := by
  cases negative <;> rfl

end Lexeme

/-- The cuts of a text into lexemes. -/
structure Text.Factors (s : Text) (ls : List Lexeme) : Prop where
  text : ls.flatMap Lexeme.text = s
  stands : ∀ before l after, ls = before ++ l :: after →
    l.Stands (before.flatMap Lexeme.text) (after.flatMap Lexeme.text)

/-! ### Characters -/

namespace Text

theorem isDigits_iff {s : Text} : s.isDigits = true ↔ s ≠ [] ∧ ∀ d ∈ s, d.isDigit = true := by
  simp [isDigits]

/-- Digits behind a run of digits make it longer. -/
theorem isDigits_append {s t : Text} (h : s.isDigits = true) (ht : ∀ d ∈ t, d.isDigit = true) :
    (s ++ t).isDigits = true := by
  obtain ⟨hne, hs⟩ := isDigits_iff.1 h
  refine isDigits_iff.2 ⟨by simp [hne], fun d hd => ?_⟩
  rcases List.mem_append.1 hd with hd | hd
  · exact hs d hd
  · exact ht d hd

/-- Word characters behind a name make it longer. -/
theorem isIdentifier_append {x y : Text} (h : x.isIdentifier = true) (hy : ∀ c ∈ y, isWordChar c = true) :
    (x ++ y).isIdentifier = true := by
  cases x with
  | nil => cases h
  | cons c x =>
    simp only [List.cons_append, isIdentifier, List.all_append, Bool.and_eq_true] at h ⊢
    exact ⟨h.1, h.2, List.all_eq_true.2 hy⟩

/-- The front of a name is a name. -/
private theorem isIdentifier_of_append {x y : Text} (h : (x ++ y).isIdentifier = true) (hx : x ≠ []) :
    x.isIdentifier = true := by
  obtain ⟨c, x, rfl⟩ := List.exists_cons_of_ne_nil hx
  simp only [List.cons_append, isIdentifier, List.all_append, Bool.and_eq_true] at h ⊢
  exact ⟨h.1, h.2.1⟩

private theorem not_isIdentifier_of_digits {x : Text} (h : ∀ d ∈ x, d.isDigit = true) : x.isIdentifier = false := by
  cases x with
  | nil => rfl
  | cons c x =>
    refine Bool.eq_false_iff.2 fun hname => ?_
    simp only [isIdentifier, Bool.and_eq_true] at hname
    have hc := h c List.mem_cons_self
    rw [not_isDigit_of_isWordStart hname.1] at hc
    cases hc

private theorem not_isWordChar_of_not_isKnown {c : Char} (h : isKnown c = false) : isWordChar c = false := by
  refine Bool.eq_false_iff.2 fun hc => ?_
  rw [isKnown_of_isWordChar hc] at h
  cases h

private theorem startsWithDigit_eq_false_iff {s : Text} :
    s.startsWithDigit = false ↔ ∀ c ∈ s.head?, c.isDigit = false := by
  cases s with
  | nil => simp [startsWithDigit]
  | cons c s => simp [startsWithDigit]

/-- A run of characters of a kind does not go back over a character of another kind. -/
private theorem eq_nil_of_suffix {p : Char → Bool} {b before : Text} (hlast : ∀ c ∈ before.getLast?, p c = false)
    (hb : b <:+ before) (hall : ∀ c ∈ b, p c = true) : b = [] := by
  rcases List.eq_nil_or_concat' b with rfl | ⟨b', c, rfl⟩
  · rfl
  · obtain ⟨u, rfl⟩ := hb
    have hfalse := hlast c (by simp)
    rw [hall c (by simp)] at hfalse
    cases hfalse

/-- A run of characters of a kind does not go on over a character of another kind. -/
private theorem eq_nil_of_prefix {p : Char → Bool} {a after : Text} (hhead : ∀ c ∈ after.head?, p c = false)
    (ha : a <+: after) (hall : ∀ c ∈ a, p c = true) : a = [] := by
  cases a with
  | nil => rfl
  | cons c a =>
    obtain ⟨u, rfl⟩ := ha
    have hfalse := hhead c rfl
    rw [hall c (by simp)] at hfalse
    cases hfalse

end Text

/-! ### Where a lexeme ends -/

namespace Lexeme

private theorem Ends.text_ne_nil {l : Lexeme} {after : Text} (h : l.Ends after) : l.text ≠ [] := by
  cases l with
  | space | operator | lparen | rparen | unknown => simp [text]
  | numeral negative digits =>
    rw [text_numeral]
    simp [(Text.isDigits_iff.1 h.1).1]
  | word x =>
    rintro rfl
    cases h.1

/-- A lexeme is cut off where it ends. -/
theorem Ends.lexemes_append {l : Lexeme} {s : Text} (h : l.Ends s) :
    Text.lexemes (l.text ++ s) = l :: Text.lexemes s := by
  cases l with
  | space c => exact Text.lexemes_cons_of_isSpace h s
  | numeral negative digits =>
    obtain ⟨hdigits, hs⟩ := h
    obtain ⟨hne, hall⟩ := Text.isDigits_iff.1 hdigits
    exact Text.lexemes_numeral_append hne hall hs
  | word x => exact Text.lexemes_word_append h.1 h.2
  | operator op =>
    have hsymbol : ofChar op.symbol = .operator op := by cases op <;> decide
    show Text.lexemes (op.symbol :: s) = _
    rw [Text.lexemes_cons_ofChar (by cases op <;> decide) (by cases op <;> decide), hsymbol]
    intro hminus
    exact h (by cases op <;> first | rfl | cases hminus)
  | lparen => exact Text.lexemes_cons_ofChar (by decide) (by decide) (by simp)
  | rparen => exact Text.lexemes_cons_ofChar (by decide) (by decide) (by simp)
  | unknown c =>
    have hword := Text.not_isWordChar_of_not_isKnown h
    have hdigit : c.isDigit = false := by
      refine Bool.eq_false_iff.2 fun hc => ?_
      rw [Text.isWordChar_of_isDigit hc] at hword
      cases hword
    have hstart : Text.isWordStart c = false := by
      refine Bool.eq_false_iff.2 fun hc => ?_
      rw [Text.isWordChar_of_isWordStart hc] at hword
      cases hword
    have hunknown : ofChar c = .unknown c := by
      simp only [Ends, Text.isKnown, Bool.or_eq_false_iff, List.contains_eq_mem, decide_eq_false_iff_not, List.mem_cons,
        List.not_mem_nil, or_false, not_or] at h
      simp [ofChar, h]
    show Text.lexemes (c :: s) = _
    rw [Text.lexemes_cons_ofChar hdigit hstart, hunknown]
    rintro rfl
    cases h

private theorem ends_ofChar {c : Char} {s : Text} (hdigit : c.isDigit = false) (hstart : Text.isWordStart c = false)
    (hminus : c = '-' → s.startsWithDigit = false) : (ofChar c).Ends s := by
  simp only [Text.isWordStart, Bool.or_eq_false_iff] at hstart
  unfold ofChar
  split
  · next hspace => exact hspace
  · next hspace =>
    repeat' split
    all_goals simp_all [Ends, Text.isKnown]

/-- A word character at the end of a lexeme, with another one behind it: the lexeme is a numeral before a letter. -/
private theorem Ends.eq_numeral {l : Lexeme} {s : Text} (h : l.Ends s) {c d : Char} (hc : c ∈ l.text.getLast?)
    (hd : d ∈ s.head?) (hwc : Text.isWordChar c = true) (hwd : Text.isWordChar d = true) :
    ∃ negative digits, l = numeral negative digits ∧ d.isDigit = false := by
  cases l with
  | numeral negative digits => exact ⟨negative, digits, rfl, Text.startsWithDigit_eq_false_iff.1 h.2 d hd⟩
  | word x =>
    rw [h.2 d hd] at hwd
    cases hwd
  | space a =>
    cases hc
    change Text.isWordChar a = true at hwc
    rw [Text.not_isWordChar_of_isSpace h] at hwc
    cases hwc
  | unknown a =>
    cases hc
    change Text.isWordChar a = true at hwc
    rw [Text.not_isWordChar_of_not_isKnown h] at hwc
    cases hwc
  | operator op =>
    cases hc
    cases op <;> cases hwc
  | lparen | rparen =>
    cases hc
    cases hwc

/-- No lexeme ends in a `-` before a digit. -/
private theorem Ends.last_ne_minus {l : Lexeme} {s : Text} (h : l.Ends s) {c : Char} (hc : c ∈ l.text.getLast?)
    (hs : s.startsWithDigit = true) : c ≠ '-' := by
  rintro rfl
  cases l with
  | numeral negative digits =>
    rw [h.2] at hs
    cases hs
  | word x => cases Text.isWordChar_of_mem h.1 _ (List.mem_of_getLast? hc)
  | space a =>
    cases hc
    cases h
  | unknown a =>
    cases hc
    cases h
  | operator op =>
    have hop : op = .sub := by cases op <;> first | rfl | cases hc
    rw [h hop] at hs
    cases hs
  | lparen | rparen => cases hc

end Lexeme

/-! ### The lexemes of a text -/

namespace Text

private theorem head?_dropWhile {p : Char → Bool} {s : Text} : ∀ c ∈ (s.dropWhile p).head?, p c = false := by
  intro c hc
  have hnot := List.head?_dropWhile_not p s
  rw [Option.mem_def.1 hc] at hnot
  exact hnot

/-- The first lexeme of a text ends where the rest of the text starts. -/
private theorem ends_of_lexemes_cons {s : Text} {l : Lexeme} {ls : List Lexeme} (h : s.lexemes = l :: ls) :
    l.Ends (ls.flatMap Lexeme.text) ∧ lexemes (ls.flatMap Lexeme.text) = ls := by
  cases s with
  | nil =>
    rw [lexemes] at h
    cases h
  | cons c cs =>
    rw [lexemes] at h
    split at h
    · next hc =>
      cases h
      rw [flatMap_text_lexemes]
      refine ⟨⟨isDigits_iff.2 ⟨by simp, fun d hd => ?_⟩, startsWithDigit_eq_false_iff.2 head?_dropWhile⟩, rfl⟩
      rcases List.mem_cons.1 hd with rfl | hd
      · exact hc
      · exact List.mem_takeWhile_imp hd
    · next hc =>
      split at h
      · next hm =>
        cases h
        rw [flatMap_text_lexemes]
        refine ⟨⟨isDigits_iff.2 ⟨?_, fun d hd => List.mem_takeWhile_imp hd⟩,
          startsWithDigit_eq_false_iff.2 head?_dropWhile⟩, rfl⟩
        -- A digit follows the sign.
        cases cs with
        | nil => cases hm.2
        | cons d ds =>
          have hd : d.isDigit = true := hm.2
          simp [hd]
      · next hm =>
        split at h
        · next hw =>
          cases h
          rw [flatMap_text_lexemes]
          refine ⟨⟨?_, head?_dropWhile⟩, rfl⟩
          rw [isIdentifier, hw, Bool.true_and]
          exact List.all_takeWhile
        · next hw =>
          cases h
          rw [flatMap_text_lexemes]
          refine ⟨Lexeme.ends_ofChar (by simpa using hc) (by simpa using hw) fun hminus => ?_, rfl⟩
          exact Bool.eq_false_iff.2 fun hdigit => hm ⟨hminus, hdigit⟩

section Split

variable {s : Text} {before after : List Lexeme} {l : Lexeme}

private theorem ends_of_lexemes (h : s.lexemes = before ++ l :: after) : l.Ends (after.flatMap Lexeme.text) := by
  induction before generalizing s with
  | nil => exact (ends_of_lexemes_cons h).1
  | cons b before ih => exact ih (ends_of_lexemes_cons h).2

/-- The character before a lexeme belongs to another lexeme, which ends there. -/
private theorem exists_lexeme_before (h : s.lexemes = before ++ l :: after) {c : Char}
    (hc : c ∈ (before.flatMap Lexeme.text).getLast?) :
    ∃ front m, before = front ++ [m] ∧ c ∈ m.text.getLast? ∧ m.Ends (l.text ++ after.flatMap Lexeme.text) := by
  rcases List.eq_nil_or_concat' before with rfl | ⟨front, m, rfl⟩
  · cases hc
  · have hfront : s.lexemes = front ++ m :: (l :: after) := by
      rw [h, List.append_assoc]
      rfl
    have hm := ends_of_lexemes hfront
    rw [List.flatMap_cons] at hm
    rw [List.flatMap_append, List.flatMap_singleton, List.getLast?_append_of_ne_nil _ hm.text_ne_nil] at hc
    exact ⟨front, m, rfl, hc, hm⟩

/-- No word character stands before a numeral, its sign included. -/
private theorem not_isWordChar_before_numeral {negative : Bool} {digits : Text}
    (h : s.lexemes = before ++ .numeral negative digits :: after) :
    ∀ c ∈ (before.flatMap Lexeme.text ++ Lexeme.sign negative).getLast?, isWordChar c = false := by
  intro c hc
  cases negative with
  | true =>
    rw [Lexeme.sign, if_pos rfl, List.getLast?_concat] at hc
    cases hc
    decide
  | false =>
    rw [Lexeme.sign, if_neg (by decide), List.append_nil] at hc
    obtain ⟨front, m, -, hlast, hm⟩ := exists_lexeme_before h hc
    obtain ⟨hne, hdigits⟩ := isDigits_iff.1 (ends_of_lexemes h).1
    obtain ⟨d, ds, rfl⟩ := List.exists_cons_of_ne_nil hne
    have hd := hdigits d List.mem_cons_self
    refine Bool.eq_false_iff.2 fun hword => ?_
    obtain ⟨-, -, -, hnot⟩ := hm.eq_numeral (d := d) hlast rfl hword (isWordChar_of_isDigit hd)
    rw [hd] at hnot
    cases hnot

private theorem stands_numeral {negative : Bool} {digits : Text}
    (h : s.lexemes = before ++ .numeral negative digits :: after) :
    (Lexeme.numeral negative digits).Stands (before.flatMap Lexeme.text) (after.flatMap Lexeme.text) := by
  have hbefore := not_isWordChar_before_numeral h
  obtain ⟨hdigits, hafter⟩ := ends_of_lexemes h
  refine ⟨⟨hdigits, fun b a hb ha hall => ?_⟩, fun x hx => ?_, ?_⟩
  · have hchars := (isDigits_iff.1 hall).2
    constructor
    · exact eq_nil_of_suffix hbefore hb fun c hc => isWordChar_of_isDigit (hchars c (by simp [hc]))
    · exact eq_nil_of_prefix (startsWithDigit_eq_false_iff.1 hafter) ha fun c hc => hchars c (by simp [hc])
  · refine Bool.eq_false_iff.2 fun hname => ?_
    rw [eq_nil_of_suffix hbefore hx (isWordChar_of_mem hname)] at hname
    cases hname
  · rintro rfl hlast
    obtain ⟨front, m, -, hc, hm⟩ := exists_lexeme_before h hlast
    obtain ⟨hne, hall⟩ := isDigits_iff.1 hdigits
    obtain ⟨d, ds, rfl⟩ := List.exists_cons_of_ne_nil hne
    exact hm.last_ne_minus hc (hall d List.mem_cons_self) rfl

private theorem stands_word {x : Text} (h : s.lexemes = before ++ .word x :: after) :
    (Lexeme.word x).Stands (before.flatMap Lexeme.text) (after.flatMap Lexeme.text) := by
  obtain ⟨hx, hafter⟩ := ends_of_lexemes h
  refine ⟨hx, fun b a hb ha hname => ?_⟩
  have hchars := isWordChar_of_mem hname
  refine ⟨?_, eq_nil_of_prefix hafter ha fun c hc => hchars c (by simp [hc])⟩
  by_contra hne
  rw [List.append_assoc] at hname
  have hb' := isIdentifier_of_append hname hne
  -- The last character before the word is a word character, so a numeral ends there.
  obtain ⟨b₀, c, rfl⟩ := (List.eq_nil_or_concat' b).resolve_left hne
  have hlast : c ∈ (before.flatMap Lexeme.text).getLast? := by
    obtain ⟨u, hu⟩ := hb
    rw [← hu]
    simp
  obtain ⟨front, m, rfl, hcm, hm⟩ := exists_lexeme_before h hlast
  obtain ⟨d, x, rfl⟩ := List.exists_cons_of_ne_nil (Lexeme.Ends.text_ne_nil (l := .word x) ⟨hx, hafter⟩)
  obtain ⟨negative, digits, rfl, -⟩ :=
    hm.eq_numeral (d := d) hcm rfl (hchars c (by simp)) (isWordChar_of_mem hx d List.mem_cons_self)
  have hnumeral : s.lexemes = front ++ .numeral negative digits :: (.word (d :: x) :: after) := by
    rw [h, List.append_assoc]
    rfl
  obtain ⟨⟨hdigits, -⟩, hnone, -⟩ := stands_numeral hnumeral
  rw [List.flatMap_append, List.flatMap_singleton, Lexeme.text_numeral, ← List.append_assoc] at hb
  generalize b₀ ++ [c] = b at hb hb' hne
  have hall := (isDigits_iff.1 hdigits).2
  rcases List.suffix_or_suffix_of_suffix hb (List.suffix_append _ digits) with hin | ⟨y, rfl⟩
  · -- A name does not start within the digits.
    rw [not_isIdentifier_of_digits fun d hd => hall d (hin.subset hd)] at hb'
    cases hb'
  · -- Nor does the numeral continue a name.
    have hy : y <:+ front.flatMap Lexeme.text ++ Lexeme.sign negative := by
      obtain ⟨u, hu⟩ := hb
      rw [← List.append_assoc] at hu
      exact ⟨u, List.append_cancel_right hu⟩
    rcases eq_or_ne y [] with rfl | hyne
    · rw [List.nil_append, not_isIdentifier_of_digits hall] at hb'
      cases hb'
    · have hfalse := hnone y hy
      rw [isIdentifier_of_append hb' hyne] at hfalse
      cases hfalse

private theorem stands_of_lexemes (h : s.lexemes = before ++ l :: after) :
    l.Stands (before.flatMap Lexeme.text) (after.flatMap Lexeme.text) := by
  have hends := ends_of_lexemes h
  cases l with
  | space | unknown => exact hends
  | numeral => exact stands_numeral h
  | word => exact stands_word h
  | operator | lparen | rparen => trivial

end Split

/-- Only a numeral without a sign starts with a digit. -/
private theorem eq_numeral_of_stands {l : Lexeme} {before after : Text} (h : l.Stands before after)
    (hdigit : startsWithDigit (l.text ++ after) = true) : ∃ digits, l = .numeral false digits := by
  cases l with
  | space c =>
    change c.isDigit = true at hdigit
    rw [not_isDigit_of_isSpace h] at hdigit
    cases hdigit
  | numeral negative digits =>
    cases negative with
    | true => cases hdigit
    | false => exact ⟨digits, rfl⟩
  | word x =>
    have hx := h.holds
    cases x with
    | nil => cases hx
    | cons c x =>
      simp only [isIdentifier, Bool.and_eq_true] at hx
      change c.isDigit = true at hdigit
      rw [not_isDigit_of_isWordStart hx.1] at hdigit
      cases hdigit
  | operator op => cases op <;> cases hdigit
  | lparen | rparen => cases hdigit
  | unknown c =>
    have hknown : isKnown c = false := h
    rw [isKnown_of_isDigit hdigit] at hknown
    cases hknown

/-- A lexeme in its place ends there, if the lexemes behind it are in their places too. -/
private theorem ends_of_stands {l : Lexeme} {before after : List Lexeme}
    (h : ∀ b m a, before ++ l :: after = b ++ m :: a →
      m.Stands (b.flatMap Lexeme.text) (a.flatMap Lexeme.text)) : l.Ends (after.flatMap Lexeme.text) := by
  have hl := h before l after rfl
  cases l with
  | space | unknown => exact hl
  | lparen | rparen => trivial
  | numeral negative digits =>
    obtain ⟨⟨hdigits, hmaximal⟩, -, -⟩ := hl
    refine ⟨hdigits, startsWithDigit_eq_false_iff.2 fun c hc => Bool.eq_false_iff.2 fun hdigit => ?_⟩
    obtain ⟨t, ht⟩ := List.head?_eq_some_iff.1 hc
    have hlonger : isDigits ([] ++ digits ++ [c]) = true :=
      isDigits_append hdigits (List.forall_mem_singleton.2 hdigit)
    cases (hmaximal [] [c] List.nil_suffix ⟨t, ht.symm⟩ hlonger).2
  | word x =>
    obtain ⟨hx, hmaximal⟩ := hl
    refine ⟨hx, fun c hc => Bool.eq_false_iff.2 fun hword => ?_⟩
    obtain ⟨t, ht⟩ := List.head?_eq_some_iff.1 hc
    have hlonger : isIdentifier ([] ++ x ++ [c]) = true :=
      isIdentifier_append hx (List.forall_mem_singleton.2 hword)
    cases (hmaximal [] [c] List.nil_suffix ⟨t, ht.symm⟩ hlonger).2
  | operator op =>
    rintro rfl
    refine Bool.eq_false_iff.2 fun hdigit => ?_
    cases after with
    | nil => cases hdigit
    | cons m rest =>
      -- A numeral behind the operator would have taken it for its sign.
      have hm := h (before ++ [.operator .sub]) m rest (by simp)
      obtain ⟨digits, rfl⟩ := eq_numeral_of_stands hm hdigit
      refine hm.2.2 rfl ?_
      rw [List.flatMap_append, List.flatMap_singleton]
      exact List.getLast?_concat

/-- Lexemes in their places are those that the scanner cuts off. -/
private theorem lexemes_flatMap_text (before : List Lexeme) {ls : List Lexeme}
    (h : ∀ b l a, before ++ ls = b ++ l :: a → l.Stands (b.flatMap Lexeme.text) (a.flatMap Lexeme.text)) :
    lexemes (ls.flatMap Lexeme.text) = ls := by
  induction ls generalizing before with
  | nil =>
    rw [List.flatMap_nil, lexemes]
  | cons l rest ih =>
    have hrest : lexemes (rest.flatMap Lexeme.text) = rest := by
      apply ih (before ++ [l])
      rw [List.append_assoc]
      exact h
    rw [List.flatMap_cons, (ends_of_stands h).lexemes_append, hrest]

/-- There is one cut of a text. -/
theorem factors_iff {s : Text} {ls : List Lexeme} : s.Factors ls ↔ ls = s.lexemes := by
  constructor
  · rintro ⟨rfl, hstands⟩
    exact (lexemes_flatMap_text [] hstands).symm
  · rintro rfl
    exact ⟨s.flatMap_text_lexemes, fun _ _ _ h => stands_of_lexemes h⟩

end Text

/-! ### What is read from a lexeme -/

private theorem int64?_eq_none {z : Int} : int64? z = none ↔ ¬(-2 ^ 63 ≤ z ∧ z ≤ 2 ^ 63 - 1) := by
  have hmin : Int64.minValue.toInt = -2 ^ 63 := by decide
  have hmax : Int64.maxValue.toInt = 2 ^ 63 - 1 := by decide
  rw [int64?, hmin, hmax]
  split
  · next hrange => exact iff_of_false (by simp) (not_not.2 hrange)
  · next hrange => exact iff_of_true rfl hrange

namespace Lexeme

/-- The token of a lexeme. -/
inductive Denotes : Lexeme → Token → Prop where
  | numeral {negative : Bool} {digits : Text} {value : Int64} : value.toInt = exactValue negative digits →
      Denotes (numeral negative digits) (.literal value)
  | word (x : Text) : Denotes (word x) (.name x)
  | operator (op : Operator) : Denotes (operator op) (.operator op)
  | lparen : Denotes lparen .lparen
  | rparen : Denotes rparen .rparen

/-- The rules that a lexeme can break on its own, with the error for it. -/
inductive Violates (limits : Limits) : Lexeme → Error → Prop where
  | range {negative : Bool} {digits : Text} :
      ¬(-2 ^ 63 ≤ exactValue negative digits ∧ exactValue negative digits ≤ 2 ^ 63 - 1) →
      Violates limits (numeral negative digits) (.integerOutOfRange (numeral negative digits).text)
  | length {x : Text} : limits.identifierLength < x.length →
      Violates limits (word x) (.identifierTooLong x limits.identifierLength)

/-- How a lexeme behind others is rejected: it breaks a rule of its own, or else there is no room for its token. -/
inductive Rejected (limits : Limits) (before : List Lexeme) (l : Lexeme) : Error → Prop where
  | violates {e : Error} : l.Violates limits e → Rejected limits before l e
  | excess : l.isSignificant = true → (∀ e, ¬l.Violates limits e) → limits.tokens ≤ before.countP isSignificant →
      Rejected limits before l (.tooMany .tokens limits.tokens)

private theorem read_eq_error_iff {limits : Limits} {l : Lexeme} {e : Error} :
    l.read limits = .error e ↔ l.Violates limits e := by
  constructor
  · intro h
    cases l with
    | space | operator | lparen | rparen | unknown => cases h
    | numeral negative digits =>
      rw [read] at h
      split at h
      · cases h
      · next hnone =>
        cases h
        rw [numeralValue_eq_exactValue] at hnone
        exact .range (int64?_eq_none.1 hnone)
    | word x =>
      rw [read] at h
      split at h
      · next hlong =>
        cases h
        exact .length hlong
      · cases h
  · rintro (hrange | hlong)
    · rw [read, numeralValue_eq_exactValue, int64?_eq_none.2 hrange]
    · rw [read, if_pos hlong]

private theorem denotes_of_read {limits : Limits} {l : Lexeme} {t : Token} (h : l.read limits = .token t) :
    l.Denotes t := by
  cases l with
  | space | unknown => cases h
  | operator | lparen | rparen =>
    cases h
    constructor
  | numeral negative digits =>
    rw [read] at h
    split at h
    · next value hvalue =>
      cases h
      rw [int64?] at hvalue
      split at hvalue
      · next hrange =>
        cases hvalue
        refine .numeral ?_
        rw [← numeralValue_eq_exactValue]
        exact Int64.toInt_ofInt_of_le hrange.1 (Int.lt_add_one_of_le hrange.2)
      · cases hvalue
    · cases h
  | word x =>
    rw [read] at h
    split at h
    · cases h
    · cases h
      exact .word x

/-- A lexeme without an error is a token exactly if it is not dropped. -/
private theorem isToken_eq_isSignificant {limits : Limits} {l : Lexeme} (h : ∀ e, l.read limits ≠ .error e) :
    l.isToken limits = l.isSignificant := by
  rw [isToken]
  cases l with
  | space | operator | lparen | rparen | unknown => rfl
  | numeral negative digits =>
    rw [read] at h ⊢
    split at h
    · rfl
    · exact absurd rfl (h _)
  | word x =>
    rw [read] at h ⊢
    split at h
    · exact absurd rfl (h _)
    · next hshort =>
      rw [if_neg hshort]
      rfl

private theorem read_ne_error_of_isToken {limits : Limits} {l : Lexeme} (h : l.isToken limits = true) :
    ∀ e, l.read limits ≠ .error e := by
  intro e he
  rw [isToken, he] at h
  cases h

private theorem countP_isToken {limits : Limits} {ls : List Lexeme} (h : ∀ l ∈ ls, ∀ e, l.read limits ≠ .error e) :
    ls.countP (isToken limits) = ls.countP isSignificant :=
  List.countP_congr fun l hl => by rw [isToken_eq_isSignificant (h l hl)]

/-- A lexeme that ends a scan is rejected, and none before it is. -/
theorem Offends.rejected {limits : Limits} {before : List Lexeme} {l : Lexeme} {e : Error}
    (h : Offends limits before l e) :
    l.Rejected limits before e ∧ ∀ b m a, before = b ++ m :: a → ∀ e', ¬m.Rejected limits b e' := by
  have hcount := countP_isToken h.readable
  constructor
  · rcases h.breaks with hread | ⟨htoken, hfull, rfl⟩
    · exact .violates (read_eq_error_iff.1 hread)
    · have hread := read_ne_error_of_isToken htoken
      rw [isToken_eq_isSignificant hread] at htoken
      rw [hcount] at hfull
      exact .excess htoken (fun e he => hread e (read_eq_error_iff.2 he)) hfull
  · rintro b m a rfl e' (hviolates | ⟨hm, -, hfull⟩)
    · exact h.readable m (by simp) e' (read_eq_error_iff.2 hviolates)
    · have hfits := h.fits
      rw [hcount, List.countP_append, List.countP_cons_of_pos hm] at hfits
      omega

end Lexeme

/-! ### The scan of a cut text -/

/-- A scan that succeeds has read every lexeme, each that is not dropped as its token. -/
theorem Scan.forall₂_denotes {limits : Limits} {count : Nat} {ls : List Lexeme} {tokens : List Token}
    (hcount : count ≤ limits.tokens) (h : (ofLexemes limits count ls).result = .ok tokens) :
    (∀ l ∈ ls, ∀ e, ¬l.Violates limits e) ∧ count + ls.countP Lexeme.isSignificant ≤ limits.tokens ∧
      ∃ ts, tokens = ts ++ [.stop] ∧ List.Forall₂ Lexeme.Denotes (ls.filter Lexeme.isSignificant) ts := by
  induction ls generalizing count tokens with
  | nil =>
    cases h
    exact ⟨by simp, hcount, [], rfl, .nil⟩
  | cons l rest ih =>
    rw [ofLexemes] at h
    have hviolates : ∀ e, l.read limits ≠ .error e := by
      intro e he
      rw [he] at h
      cases h
    have hl : ∀ e, ¬l.Violates limits e := fun e he => hviolates e (Lexeme.read_eq_error_iff.2 he)
    have hsignificant := Lexeme.isToken_eq_isSignificant hviolates
    rw [Lexeme.isToken] at hsignificant
    by_cases htoken : ∃ t, l.read limits = .token t
    · obtain ⟨t, ht⟩ := htoken
      rw [ht] at h hsignificant
      dsimp only at h
      split at h
      · cases h
      · next hroom =>
        rcases hr : (ofLexemes limits (count + 1) rest).result with e | us
        · rw [hr] at h
          cases h
        · rw [hr] at h
          cases h
          obtain ⟨hrest, hfits, ts, rfl, hdenotes⟩ := ih (Nat.lt_of_not_le hroom) hr
          refine ⟨List.forall_mem_cons.2 ⟨hl, hrest⟩, ?_, t :: ts, rfl, ?_⟩
          · rw [List.countP_cons_of_pos hsignificant.symm]
            omega
          · rw [List.filter_cons_of_pos hsignificant.symm]
            exact .cons (Lexeme.denotes_of_read ht) hdenotes
    · -- Space and unknown characters leave the tokens as they are.
      have hrest : (ofLexemes limits count rest).result = .ok tokens := by
        rcases hread : l.read limits with _ | c | t | e
        · rwa [hread] at h
        · rwa [hread] at h
        · exact absurd ⟨t, hread⟩ htoken
        · exact absurd hread (hviolates e)
      have hdropped : ¬l.isSignificant = true := by
        rw [← hsignificant]
        split
        · next t ht => exact absurd ⟨t, ht⟩ htoken
        · decide
      rw [List.countP_cons_of_neg hdropped, List.filter_cons_of_neg hdropped]
      obtain ⟨hall, hfits, hts⟩ := ih hcount hrest
      exact ⟨List.forall_mem_cons.2 ⟨hl, hall⟩, hfits, hts⟩

namespace Lexeme

private theorem forall_not_violates_iff {limits : Limits} {ls : List Lexeme} :
    (∀ l ∈ ls, ∀ e, ¬l.Violates limits e) ↔
      (∀ negative digits, numeral negative digits ∈ ls →
        -2 ^ 63 ≤ exactValue negative digits ∧ exactValue negative digits ≤ 2 ^ 63 - 1) ∧
      ∀ x, word x ∈ ls → x.length ≤ limits.identifierLength := by
  constructor
  · intro h
    constructor
    · intro negative digits hmem
      by_contra hrange
      exact h _ hmem _ (.range hrange)
    · intro x hmem
      by_contra hlong
      exact h _ hmem _ (.length (Nat.lt_of_not_le hlong))
  · rintro ⟨hrange, hlength⟩ l hmem e (hout | hlong)
    · exact hout (hrange _ _ hmem)
    · exact absurd (hlength _ hmem) (Nat.not_le_of_lt hlong)

end Lexeme

namespace Text

/-- The scan of a text succeeds exactly if no lexeme breaks a rule of its own and there is room for the tokens. -/
private theorem exists_scan_eq_ok_iff {limits : Limits} {s : Text} :
    (∃ tokens, (s.scan limits).result = .ok tokens) ↔
      (∀ l ∈ s.lexemes, ∀ e, ¬l.Violates limits e) ∧ s.lexemes.countP Lexeme.isSignificant ≤ limits.tokens := by
  constructor
  · rintro ⟨tokens, h⟩
    obtain ⟨hall, hfits, -⟩ := Scan.forall₂_denotes (Nat.zero_le _) h
    rw [Nat.zero_add] at hfits
    exact ⟨hall, hfits⟩
  · rintro ⟨hall, hfits⟩
    rcases h : (s.scan limits).result with e | tokens
    · obtain ⟨before, l, after, hs, hoffends, -⟩ := @Scan.exists_offends limits [] s.lexemes e
        (fun b hb => by cases hb) (Nat.zero_le _) h
      rw [hs] at hall hfits
      rcases hoffends.rejected.1 with hviolates | ⟨hl, -, hfull⟩
      · exact absurd hviolates (hall l (by simp) e)
      · rw [List.nil_append] at hfull
        rw [List.countP_append, List.countP_cons_of_pos hl] at hfits
        omega
    · exact ⟨tokens, rfl⟩

/-- A text has one cut into lexemes, and its scan goes by that cut. -/
theorem scan_factors (limits : Limits) (s : Text) :
    ∃ ls, s.Factors ls ∧ (∀ ls', s.Factors ls' → ls' = ls) ∧
      ((∃ tokens, (s.scan limits).result = .ok tokens) ↔
        (∀ negative digits, Lexeme.numeral negative digits ∈ ls →
          -2 ^ 63 ≤ Lexeme.exactValue negative digits ∧ Lexeme.exactValue negative digits ≤ 2 ^ 63 - 1) ∧
        (∀ x, Lexeme.word x ∈ ls → x.length ≤ limits.identifierLength) ∧
        ls.countP Lexeme.isSignificant ≤ limits.tokens) ∧
      (∀ tokens, (s.scan limits).result = .ok tokens →
        (∃ ts, tokens = ts ++ [.stop] ∧ List.Forall₂ Lexeme.Denotes (ls.filter Lexeme.isSignificant) ts) ∧
          (s.scan limits).skipped = ls.flatMap Lexeme.skips) ∧
      ∀ e, (s.scan limits).result = .error e →
        ∃ before l after, ls = before ++ l :: after ∧ l.Rejected limits before e ∧
          (∀ b m a, before = b ++ m :: a → ∀ e', ¬m.Rejected limits b e') ∧
          (s.scan limits).skipped = before.flatMap Lexeme.skips := by
  refine ⟨s.lexemes, factors_iff.2 rfl, fun ls' => factors_iff.1, ?_, ?_, ?_⟩
  · rw [exists_scan_eq_ok_iff, Lexeme.forall_not_violates_iff, and_assoc]
  · intro tokens h
    obtain ⟨-, -, hts⟩ := Scan.forall₂_denotes (Nat.zero_le _) h
    refine ⟨hts, Scan.skipped_of_ne_error fun e he => ?_⟩
    rw [← scan, h] at he
    cases he
  · intro e h
    obtain ⟨before, l, after, hs, hoffends, hskipped⟩ := @Scan.exists_offends limits [] s.lexemes e
      (fun b hb => by cases hb) (Nat.zero_le _) h
    obtain ⟨hrejected, hfirst⟩ := hoffends.rejected
    exact ⟨before, l, after, hs, hrejected, hfirst, hskipped⟩

end Text

end ArithMips
