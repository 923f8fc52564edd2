import ArithMips.Proofs.Grammar
import ArithMips.Proofs.Space
import ArithMips.Token.Scan
import Mathlib.Algebra.Group.Int.Defs
import Mathlib.Algebra.Group.Nat.Defs

/-!
# Spelled tokens

`Spelled ts s` says that the text `s` writes the tokens `ts` one after the other, each with any run of space before
it.  Only behind the operator `-` something is asked of the space: no digit may follow directly, since the scan would
take the `-` as the sign of a numeral.  The value of a numeral is told by the places of its digits
(`Text.placeValue`), and this is the value that is read (`Lexeme.numeralValue_eq_exactValue`).

* Making space normal and trimming lead from one spelling of the tokens to another (`Spelled.squeeze`,
  `Spelled.trim`).
* Where no operand directly follows another one, every spelling is scanned into its tokens, and nothing is skipped
  (`Spelled.scan`).
-/

namespace ArithMips

open Token (Apart)

namespace Text

/-- Whether a text is a name: letters, digits and underscores that do not start with a digit. -/
def isIdentifier : Text → Bool
  | [] => false
  | c :: s => isWordStart c && s.all isWordChar

theorem isWordChar_of_isWordStart {c : Char} (h : isWordStart c = true) : isWordChar c = true := by
  simp only [isWordStart, isWordChar, Char.isAlphanum, Bool.or_eq_true] at h ⊢
  rcases h with h | h
  · exact .inl (.inl h)
  · exact .inr h

theorem isWordChar_of_isDigit {c : Char} (h : c.isDigit = true) : isWordChar c = true := by
  simp [isWordChar, Char.isAlphanum, h]

theorem isWordChar_of_mem {x : Text} (h : x.isIdentifier = true) : ∀ c ∈ x, isWordChar c = true := by
  cases x with
  | nil => cases h
  | cons c s =>
    simp only [isIdentifier, Bool.and_eq_true, List.all_eq_true] at h
    intro d hd
    rcases List.mem_cons.1 hd with rfl | hd
    · exact isWordChar_of_isWordStart h.1
    · exact h.2 d hd

private theorem isAlpha_iff {c : Char} :
    c.isAlpha = true ↔ 65 ≤ c.toNat ∧ c.toNat ≤ 90 ∨ 97 ≤ c.toNat ∧ c.toNat ≤ 122 := by
  show (decide (c.val ≥ 'A'.val ∧ c.val ≤ 'Z'.val) || (decide (c.val ≥ 'a'.val) && decide (c.val ≤ 'z'.val))) = true ↔ _
  simp only [Bool.or_eq_true, Bool.and_eq_true, decide_eq_true_eq, ge_iff_le, UInt32.le_iff_toNat_le]
  rfl

private theorem isDigit_iff {c : Char} : c.isDigit = true ↔ 48 ≤ c.toNat ∧ c.toNat ≤ 57 := Char.isDigit_iff_toNat

theorem not_isWhite_of_isWordChar {c : Char} (h : isWordChar c = true) : isWhite c = false := by
  simp only [isWordChar, Char.isAlphanum, Bool.or_eq_true, isAlpha_iff, isDigit_iff, beq_iff_eq] at h
  rcases h with h | rfl
  · simp [isWhite]
    omega
  · decide

theorem not_isSpace_of_isWordChar {c : Char} (h : isWordChar c = true) : isSpace c = false :=
  not_isSpace_of_not_isWhite (not_isWhite_of_isWordChar h)

theorem not_isWordChar_of_isSpace {c : Char} (h : isSpace c = true) : isWordChar c = false := by
  refine Bool.eq_false_iff.2 fun hc => ?_
  rw [not_isSpace_of_isWordChar hc] at h
  cases h

theorem not_isDigit_of_isSpace {c : Char} (h : isSpace c = true) : c.isDigit = false := by
  refine Bool.eq_false_iff.2 fun hc => ?_
  rw [not_isSpace_of_isWordChar (isWordChar_of_isDigit hc)] at h
  cases h

theorem not_isDigit_of_isWordStart {c : Char} (h : isWordStart c = true) : c.isDigit = false := by
  simp only [isWordStart, Bool.or_eq_true, isAlpha_iff, beq_iff_eq] at h
  rw [Bool.eq_false_iff, ne_eq, isDigit_iff]
  rcases h with h | rfl
  · omega
  · decide

theorem startsWithDigit_eq_false {s : Text} (h : ∀ c ∈ s.head?, isWordChar c = false) :
    startsWithDigit s = false := by
  cases s with
  | nil => rfl
  | cons c s =>
    have hc := h c rfl
    simp only [isWordChar, Char.isAlphanum, Bool.or_eq_false_iff] at hc
    exact hc.1.2

end Text

private theorem int64?_eq_some {value : Int64} {z : Int} (h : value.toInt = z) : int64? z = some value := by
  subst h
  rw [int64?, if_pos ⟨Int64.minValue_le_toInt value, Int64.toInt_le value⟩, Int64.ofInt_toInt]

/-- The number that decimal digits write: each of them counts for its power of ten. -/
def Text.placeValue : Text → Nat
  | [] => 0
  | d :: rest => (d.toNat - '0'.toNat) * 10 ^ rest.length + placeValue rest

/-- The number that digits write behind a sign. -/
def Lexeme.exactValue (negative : Bool) (digits : Text) : Int :=
  if negative then -(digits.placeValue : Int) else digits.placeValue

theorem Text.decimalValue_eq_placeValue (digits : Text) : digits.decimalValue = digits.placeValue := by
  induction digits with
  | nil => rfl
  | cons d rest ih =>
    have hshift := @Nat.ofDigitChars_eq_ofDigitChars_zero rest (d.toNat - '0'.toNat)
    rw [decimalValue, Nat.ofDigitChars_cons, Nat.mul_zero, Nat.zero_add, hshift, ← decimalValue, ih, placeValue,
      Nat.mul_comm]

theorem Lexeme.numeralValue_eq_exactValue (negative : Bool) (digits : Text) :
    numeralValue negative digits = exactValue negative digits := by
  rw [numeralValue, exactValue, Text.decimalValue_eq_placeValue]

/-- A numeral is read as the number that it writes, if that is one of 64 bits. -/
theorem Lexeme.read_numeral {negative : Bool} {digits : Text} {value : Int64}
    (h : value.toInt = exactValue negative digits) (limits : Limits) :
    (numeral negative digits).read limits = .token (.literal value) := by
  rw [read, numeralValue_eq_exactValue, int64?_eq_some h]

/-- The spellings of a token.  A numeral may start with any number of zeros. -/
inductive Spells : Token → Text → Prop where
  | literal {value : Int64} {negative : Bool} {digits : Text} : digits ≠ [] → (∀ d ∈ digits, d.isDigit = true) →
      value.toInt = Lexeme.exactValue negative digits →
      Spells (.literal value) (Lexeme.numeral negative digits).text
  | name {x : Text} : x.isIdentifier = true → Spells (.name x) x
  | operator (op : Operator) : Spells (.operator op) [op.symbol]
  | lparen : Spells .lparen ['(']
  | rparen : Spells .rparen [')']

/-- The spellings of a list of tokens. -/
inductive Spelled : List Token → Text → Prop where
  | nil : Spelled [] []
  | cons {t : Token} {ts : List Token} {gap w s : Text} : gap.IsGap → Spells t w →
      (t = .operator .sub → s.startsWithDigit = false) → Spelled ts s → Spelled (t :: ts) (gap ++ w ++ s)

/-! ### Characters of a spelling -/

namespace Spells

theorem ne_nil {t : Token} {w : Text} (h : Spells t w) : w ≠ [] := by
  cases h with
  | @literal _ negative digits hne =>
    cases negative
    · exact hne
    · simp [Lexeme.text]
  | name hx =>
    rintro rfl
    cases hx
  | operator | lparen | rparen => simp

private theorem isWordChar_or {t : Token} {w : Text} (h : Spells t w) :
    ∀ c ∈ w, Text.isWordChar c = true ∨ c ∈ ['+', '-', '*', '/', '(', ')'] := by
  intro c hc
  cases h with
  | @literal _ negative digits _ hdigits =>
    cases negative
    · exact .inl (Text.isWordChar_of_isDigit (hdigits c hc))
    · rcases List.mem_cons.1 hc with rfl | hc
      · exact .inr (by decide)
      · exact .inl (Text.isWordChar_of_isDigit (hdigits c hc))
  | name hx => exact .inl (Text.isWordChar_of_mem hx c hc)
  | operator op =>
    rw [List.mem_singleton.1 hc]
    exact .inr (by cases op <;> decide)
  | lparen | rparen =>
    rw [List.mem_singleton.1 hc]
    exact .inr (by decide)

private theorem not_isWhite {t : Token} {w : Text} (h : Spells t w) : ∀ c ∈ w, Text.isWhite c = false := by
  intro c hc
  rcases h.isWordChar_or c hc with hw | hw
  · exact Text.not_isWhite_of_isWordChar hw
  · have hall : ∀ d ∈ ['+', '-', '*', '/', '(', ')'], Text.isWhite d = false := by
      simp [Text.isWhite]
    exact hall c hw

theorem not_isSpace {t : Token} {w : Text} (h : Spells t w) : ∀ c ∈ w, Text.isSpace c = false :=
  fun c hc => Text.not_isSpace_of_not_isWhite (h.not_isWhite c hc)

theorem semicolon_notMem {t : Token} {w : Text} (h : Spells t w) : ';' ∉ w := by
  intro hc
  rcases h.isWordChar_or _ hc with hw | hw
  · cases hw
  · simp at hw

/-- Only an operand starts with a letter or a digit. -/
theorem not_isWordChar_head {t : Token} {w : Text} (h : Spells t w) (ht : t.startsOperand = false) {gap s : Text}
    (hgap : gap.IsGap) : ∀ c ∈ (gap ++ w ++ s).head?, Text.isWordChar c = false := by
  intro c hc
  cases gap with
  | cons d gap =>
    cases hc
    exact Text.not_isWordChar_of_isSpace (hgap c List.mem_cons_self)
  | nil =>
    cases h with
    | literal | name | lparen => cases ht
    | operator op =>
      cases hc
      cases op <;> decide
    | rparen =>
      cases hc
      decide

end Spells

/-! ### Lexemes of a spelling -/

namespace Text

theorem lexemes_cons_ofChar {c : Char} {s : Text} (hdigit : c.isDigit = false) (hstart : isWordStart c = false)
    (hminus : c = '-' → startsWithDigit s = false) : lexemes (c :: s) = Lexeme.ofChar c :: lexemes s := by
  rw [lexemes, if_neg (by simp [hdigit]), if_neg (fun h => by simp [hminus h.1] at h), if_neg (by simp [hstart])]

theorem lexemes_cons_of_isSpace {c : Char} (h : isSpace c = true) (s : Text) :
    lexemes (c :: s) = .space c :: lexemes s := by
  have hstart : isWordStart c = false := by
    refine Bool.eq_false_iff.2 fun hc => ?_
    rw [not_isSpace_of_isWordChar (isWordChar_of_isWordStart hc)] at h
    cases h
  rw [lexemes_cons_ofChar (not_isDigit_of_isSpace h) hstart (by rintro rfl; cases h), Lexeme.ofChar, if_pos h]

theorem lexemes_gap_append {gap : Text} (h : gap.IsGap) (s : Text) :
    lexemes (gap ++ s) = gap.map .space ++ lexemes s := by
  induction gap with
  | nil => rfl
  | cons c gap ih =>
    rw [List.cons_append, lexemes_cons_of_isSpace (h c List.mem_cons_self),
      ih fun d hd => h d (List.mem_cons_of_mem _ hd)]
    rfl

theorem lexemes_numeral_append {negative : Bool} {digits : Text} (hne : digits ≠ [])
    (hdigits : ∀ d ∈ digits, d.isDigit = true) {s : Text} (hs : startsWithDigit s = false) :
    lexemes ((Lexeme.numeral negative digits).text ++ s) = .numeral negative digits :: lexemes s := by
  have hhead : ∀ c ∈ s.head?, c.isDigit = false := by
    intro c hc
    cases s with
    | nil => cases hc
    | cons d s =>
      cases hc
      exact hs
  obtain ⟨d, ds, rfl⟩ := List.exists_cons_of_ne_nil hne
  have hd := hdigits d List.mem_cons_self
  cases negative with
  | true =>
    obtain ⟨htake, hdrop⟩ := takeWhile_append_of_head hdigits hhead
    rw [List.cons_append] at htake hdrop
    simp only [Lexeme.text, if_true, List.cons_append]
    rw [lexemes]
    simp [startsWithDigit, hd] at htake hdrop ⊢
    simp [htake, hdrop]
  | false =>
    obtain ⟨htake, hdrop⟩ :=
      takeWhile_append_of_head (fun c hc => hdigits c (List.mem_cons_of_mem _ hc)) hhead
    rw [Lexeme.text, if_neg (by decide), List.cons_append, lexemes, if_pos hd, htake, hdrop]

theorem lexemes_word_append {x : Text} (hx : x.isIdentifier = true) {s : Text}
    (hs : ∀ c ∈ s.head?, isWordChar c = false) : lexemes (x ++ s) = .word x :: lexemes s := by
  cases x with
  | nil => cases hx
  | cons c x =>
    have hchars := isWordChar_of_mem hx
    simp only [isIdentifier, Bool.and_eq_true] at hx
    obtain ⟨htake, hdrop⟩ := takeWhile_append_of_head (fun d hd => hchars d (List.mem_cons_of_mem _ hd)) hs
    have hminus : c ≠ '-' := by
      rintro rfl
      exact absurd hx.1 (by decide)
    rw [List.cons_append, lexemes, if_neg (by simp [not_isDigit_of_isWordStart hx.1]),
      if_neg (fun h => hminus h.1), if_pos hx.1, htake, hdrop]

end Text

/-- A spelled token that the text behind it does not continue is one lexeme, which is read as the token. -/
theorem Spells.exists_lexeme {t : Token} {w : Text} (h : Spells t w) {limits : Limits}
    (hname : ∀ x, t = .name x → x.length ≤ limits.identifierLength) {s : Text}
    (hminus : t = .operator .sub → s.startsWithDigit = false)
    (hoperand : t.isOperand = true → ∀ c ∈ s.head?, Text.isWordChar c = false) :
    ∃ l, Text.lexemes (w ++ s) = l :: Text.lexemes s ∧ l.read limits = .token t := by
  cases h with
  | @literal value negative digits hne hdigits hvalue =>
    exact ⟨_, Text.lexemes_numeral_append hne hdigits (Text.startsWithDigit_eq_false (hoperand rfl)),
      Lexeme.read_numeral hvalue limits⟩
  | name hx =>
    refine ⟨_, Text.lexemes_word_append hx (hoperand rfl), ?_⟩
    rw [Lexeme.read, if_neg (Nat.not_lt.2 (hname _ rfl))]
  | operator op =>
    have hsymbol : Lexeme.ofChar op.symbol = .operator op := by cases op <;> decide
    refine ⟨.operator op, ?_, rfl⟩
    rw [List.singleton_append, Text.lexemes_cons_ofChar, hsymbol]
    · cases op <;> decide
    · cases op <;> decide
    · intro hop
      refine hminus (congrArg _ ?_)
      cases op <;> first | rfl | cases hop
  | lparen => exact ⟨.lparen, Text.lexemes_cons_ofChar (by decide) (by decide) (by simp), rfl⟩
  | rparen => exact ⟨.rparen, Text.lexemes_cons_ofChar (by decide) (by decide) (by simp), rfl⟩

namespace Scan

theorem ofLexemes_spaces (limits : Limits) (count : Nat) (gap : Text) (ls : List Lexeme) :
    ofLexemes limits count (gap.map .space ++ ls) = ofLexemes limits count ls := by
  induction gap with
  | nil => rfl
  | cons c gap ih => exact ih

theorem ofLexemes_cons_token {limits : Limits} {count : Nat} {l : Lexeme} {t : Token}
    (hl : l.read limits = .token t) (hcount : count < limits.tokens) {ls : List Lexeme} {ts : List Token}
    (h : ofLexemes limits (count + 1) ls = { skipped := [], result := .ok ts }) :
    ofLexemes limits count (l :: ls) = { skipped := [], result := .ok (t :: ts) } := by
  rw [ofLexemes, hl]
  dsimp only
  rw [if_neg (Nat.not_le.2 hcount), h]
  rfl

end Scan

theorem Token.Apart.startsOperand_eq_false {t u : Token} (h : Apart t u) (ht : t.isOperand = true) :
    u.startsOperand = false := by
  have hends : t.endsOperand = true := by
    cases t <;> first | rfl | cases ht
  exact Bool.eq_false_iff.2 fun hu => h ⟨hends, hu⟩

namespace Spelled

theorem not_isWordChar_head {ts : List Token} {s : Text} (h : Spelled ts s)
    (hts : ∀ t ∈ ts.head?, t.startsOperand = false) : ∀ c ∈ s.head?, Text.isWordChar c = false := by
  cases h with
  | nil =>
    intro c hc
    cases hc
  | cons hgap hw => exact hw.not_isWordChar_head (hts _ rfl) hgap

/-- No letter or digit directly follows an operand. -/
theorem not_isWordChar_behind {t : Token} {ts : List Token} {s : Text} (h : Spelled ts s) (ht : t.isOperand = true)
    (hnext : ∀ u ∈ ts.head?, Apart t u) : ∀ c ∈ s.head?, Text.isWordChar c = false :=
  h.not_isWordChar_head fun u hu => (hnext u hu).startsOperand_eq_false ht

protected theorem scanOn {ts : List Token} {s : Text} (h : Spelled ts s) (hchain : ts.IsChain Apart) {limits : Limits}
    (hnames : ∀ x, .name x ∈ ts → x.length ≤ limits.identifierLength) {count : Nat}
    (hcount : count + ts.length ≤ limits.tokens) :
    Scan.ofLexemes limits count s.lexemes = { skipped := [], result := .ok (ts ++ [.stop]) } := by
  induction h generalizing count with
  | nil =>
    rw [Text.lexemes]
    rfl
  | @cons t ts gap w s hgap hw hminus hs ih =>
    obtain ⟨hnext, htail⟩ := List.isChain_cons.1 hchain
    rw [List.length_cons] at hcount
    have hoperand := fun ht => hs.not_isWordChar_behind ht hnext
    have hname : ∀ x, t = .name x → x.length ≤ limits.identifierLength := by
      rintro x rfl
      exact hnames x List.mem_cons_self
    -- Nothing behind the token continues it, so it is a lexeme of its own.
    obtain ⟨l, hl, hread⟩ := hw.exists_lexeme hname hminus hoperand
    have hrest : Scan.ofLexemes limits (count + 1) s.lexemes = { skipped := [], result := .ok (ts ++ [.stop]) } :=
      ih htail (fun x hx => hnames x (List.mem_cons_of_mem _ hx)) (by omega)
    rw [List.append_assoc, Text.lexemes_gap_append hgap, Scan.ofLexemes_spaces, hl]
    exact Scan.ofLexemes_cons_token hread (by omega) hrest

protected theorem scan {ts : List Token} {s : Text} (h : Spelled ts s) (hchain : ts.IsChain Apart) {limits : Limits}
    (hnames : ∀ x, .name x ∈ ts → x.length ≤ limits.identifierLength) (hcount : ts.length ≤ limits.tokens) :
    s.scan limits = { skipped := [], result := .ok (ts ++ [.stop]) } :=
  h.scanOn hchain hnames (by omega)

/-! ### Other spellings of the same tokens -/

private theorem startsWithDigit_squeeze_append {s gap : Text} (h : s.startsWithDigit = false) (hgap : gap.IsGap) :
    (s ++ gap).squeeze.startsWithDigit = false := by
  cases s with
  | nil =>
    rw [List.nil_append, Text.squeeze_gap hgap]
    rfl
  | cons c s =>
    by_cases hc : Text.isSpace c = true
    · rw [List.cons_append, Text.squeeze_cons_of_isSpace hc]
      rcases Text.squeeze (s ++ gap) with _ | ⟨d, u⟩
      · rfl
      · by_cases hd : d = ' ' <;> simp [Text.blank, Text.startsWithDigit, hd]
    · rw [List.cons_append, Text.squeeze_cons_of_not_isSpace (by simpa using hc)]
      exact h

theorem squeeze {ts : List Token} {s : Text} (h : Spelled ts s) {gap : Text} (hgap : gap.IsGap) :
    Spelled ts (s ++ gap).squeeze := by
  induction h with
  | nil =>
    rw [List.nil_append, Text.squeeze_gap hgap]
    exact .nil
  | @cons t ts gap' w s hgap' hw hminus hs ih =>
    rw [List.append_assoc _ s gap, Text.squeeze_gap_word_append hgap' hw.ne_nil hw.not_isSpace]
    exact .cons (Text.isGap_ite _) hw (fun ht => startsWithDigit_squeeze_append (hminus ht) hgap) ih

theorem not_isWhite_getLast {ts : List Token} {s : Text} (h : Spelled ts s) :
    ∀ c ∈ s.getLast?, Text.isWhite c = false := by
  induction h with
  | nil => simp
  | @cons t ts gap w s hgap hw hminus hs ih =>
    intro c hc
    rw [List.getLast?_append] at hc
    rcases hl : s.getLast? with _ | d
    · rw [hl, Option.none_or, List.getLast?_append_of_ne_nil _ hw.ne_nil] at hc
      exact hw.not_isWhite c (List.mem_of_getLast? hc)
    · rw [hl, Option.some_or] at hc
      exact ih c (hl.trans hc)

/-- Trimming drops the space before the first token, and there is none behind the last one. -/
theorem trim {ts : List Token} {s : Text} (h : Spelled ts s) : Spelled ts s.trim ∧ s.trim.trim = s.trim := by
  cases h with
  | nil => exact ⟨.nil, rfl⟩
  | @cons t ts gap w s hgap hw hminus hs =>
    have hspelled : Spelled (t :: ts) (w ++ s) := .cons Text.isGap_nil hw hminus hs
    have hhead : ∀ c ∈ (w ++ s).head?, Text.isWhite c = false := by
      intro c hc
      obtain ⟨d, v, rfl⟩ := List.exists_cons_of_ne_nil hw.ne_nil
      cases hc
      exact hw.not_isWhite c List.mem_cons_self
    have hself : Text.trim (w ++ s) = w ++ s := Text.trim_eq_self hhead hspelled.not_isWhite_getLast
    have htrim : Text.trim (gap ++ w ++ s) = w ++ s := by
      rw [List.append_assoc, Text.trim_gap_append hgap, hself]
    rw [htrim]
    exact ⟨hspelled, hself⟩

theorem semicolon_notMem {ts : List Token} {s : Text} (h : Spelled ts s) : ';' ∉ s := by
  induction h with
  | nil => simp
  | @cons t ts gap w s hgap hw hminus hs ih =>
    simp only [List.mem_append, not_or]
    exact ⟨⟨Text.semicolon_notMem_gap hgap, hw.semicolon_notMem⟩, ih⟩

end Spelled

end ArithMips
