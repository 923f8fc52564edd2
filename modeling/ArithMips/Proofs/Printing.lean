import ArithMips.Proofs.Lexing
import ArithMips.Report.Trace

/-!
# Printed tokens

`Token.spaced` prints tokens one after the other, each behind a run of space that may be empty.  The scan of the printed
text gives the tokens back exactly if space stands between any two neighbours whose texts would run together
(`Token.fuses`): a `-` or a literal before a literal without a sign, and a name before another name or such a literal.

* Where such neighbours are kept apart, each token is a lexeme of its own (`Token.ofLexemes_spaced`).
* Where two of them are not, the text has too few lexemes.  Putting texts together never makes more tokens than they
  have on their own (`Text.tokenCount_append_le`), and the two neighbours together make one only.  It is not enough to
  look at the values: `0` and `0` run together to a numeral of the same value.
-/

namespace ArithMips

/-! ### Counting tokens -/

namespace Text

/-- The number of tokens that a text is cut into. -/
def tokenCount (s : Text) : Nat := s.lexemes.countP Lexeme.isSignificant

private theorem lexemes_nil : lexemes [] = [] := by rw [lexemes]

private theorem tokenCount_nil : tokenCount [] = 0 := by
  rw [tokenCount, lexemes_nil, List.countP_nil]

private theorem tokenCount_cons_of_isDigit {c : Char} (h : c.isDigit = true) (s : Text) :
    tokenCount (c :: s) = tokenCount (s.dropWhile Char.isDigit) + 1 := by
  rw [tokenCount, lexemes, if_pos h, List.countP_cons_of_pos rfl, tokenCount]

private theorem tokenCount_minus {s : Text} (h : s.startsWithDigit = true) :
    tokenCount ('-' :: s) = tokenCount (s.dropWhile Char.isDigit) + 1 := by
  rw [tokenCount, lexemes, if_neg (by decide), if_pos ⟨rfl, h⟩, List.countP_cons_of_pos rfl, tokenCount]

private theorem tokenCount_cons_of_isWordStart {c : Char} (h : isWordStart c = true) (s : Text) :
    tokenCount (c :: s) = tokenCount (s.dropWhile isWordChar) + 1 := by
  have hminus : c ≠ '-' := by
    rintro rfl
    cases h
  rw [tokenCount, lexemes, if_neg (by simp [not_isDigit_of_isWordStart h]), if_neg (fun hm => hminus hm.1), if_pos h,
    List.countP_cons_of_pos rfl, tokenCount]

private theorem tokenCount_cons_ofChar {c : Char} {s : Text} (hdigit : c.isDigit = false)
    (hstart : isWordStart c = false) (hminus : c = '-' → startsWithDigit s = false) :
    tokenCount (c :: s) = tokenCount s + [Lexeme.ofChar c].countP Lexeme.isSignificant := by
  rw [tokenCount, lexemes_cons_ofChar hdigit hstart hminus, ← List.singleton_append, List.countP_append, Nat.add_comm,
    tokenCount]

private theorem tokenCount_gap {gap : Text} (h : gap.IsGap) : gap.tokenCount = 0 := by
  have hlexemes := lexemes_gap_append h []
  rw [lexemes_nil, List.append_nil, List.append_nil] at hlexemes
  rw [tokenCount, hlexemes, List.countP_map, List.countP_eq_zero]
  intro c hc hsignificant
  cases hsignificant

private theorem tokenCount_le_one {l : Lexeme} (h : l.Ends []) : tokenCount l.text ≤ 1 := by
  have hlexemes := h.lexemes_append
  rw [List.append_nil, lexemes_nil] at hlexemes
  rw [tokenCount, hlexemes]
  exact List.countP_le_length

private theorem tokenCount_dropWhile_isDigit_le (s : Text) : tokenCount (s.dropWhile Char.isDigit) ≤ tokenCount s := by
  cases s with
  | nil => exact Nat.le_refl _
  | cons c s =>
    by_cases hc : c.isDigit = true
    · rw [List.dropWhile_cons_of_pos hc, tokenCount_cons_of_isDigit hc]
      exact Nat.le_succ _
    · rw [List.dropWhile_cons_of_neg hc]

private theorem dropWhile_isWordChar_dropWhile_isDigit (s : Text) :
    (s.dropWhile Char.isDigit).dropWhile isWordChar = s.dropWhile isWordChar := by
  induction s with
  | nil => rfl
  | cons c s ih =>
    by_cases hc : c.isDigit = true
    · rw [List.dropWhile_cons_of_pos hc, List.dropWhile_cons_of_pos (isWordChar_of_isDigit hc), ih]
    · rw [List.dropWhile_cons_of_neg hc]

private theorem tokenCount_dropWhile_isWordChar_le (s : Text) : tokenCount (s.dropWhile isWordChar) ≤ tokenCount s := by
  fun_induction lexemes s with
  | case1 => exact Nat.le_refl _
  | case2 c cs hc ih =>
    -- What follows the digits of a numeral may be a word.
    rw [List.dropWhile_cons_of_pos (isWordChar_of_isDigit hc), tokenCount_cons_of_isDigit hc]
    rw [dropWhile_isWordChar_dropWhile_isDigit] at ih
    omega
  | case3 c cs hc hm ih =>
    obtain ⟨rfl, -⟩ := hm
    rw [List.dropWhile_cons_of_neg (by decide)]
  | case4 c cs hc hm hw ih =>
    rw [List.dropWhile_cons_of_pos (isWordChar_of_isWordStart hw), tokenCount_cons_of_isWordStart hw]
    exact Nat.le_succ _
  | case5 c cs hc hm hw ih =>
    have hword : ¬isWordChar c = true := by
      simp only [isWordChar, isWordStart, Char.isAlphanum, Bool.or_eq_true, not_or] at hw hc ⊢
      exact ⟨⟨hw.1, hc⟩, hw.2⟩
    rw [List.dropWhile_cons_of_neg hword]

/-- What is left of two texts behind a run of characters, if the run may go on into the second text. -/
private theorem tokenCount_dropWhile_append_le {p : Char → Bool} {u v : Text}
    (hv : tokenCount (v.dropWhile p) ≤ tokenCount v)
    (h : tokenCount (u.dropWhile p ++ v) ≤ tokenCount (u.dropWhile p) + tokenCount v) :
    tokenCount ((u ++ v).dropWhile p) ≤ tokenCount (u.dropWhile p) + tokenCount v := by
  rw [List.dropWhile_append]
  split
  · omega
  · exact h

/-- Texts that are put together have at most the tokens that they have on their own. -/
theorem tokenCount_append_le (u v : Text) : tokenCount (u ++ v) ≤ tokenCount u + tokenCount v := by
  fun_induction lexemes u with
  | case1 =>
    rw [List.nil_append]
    exact Nat.le_add_left _ _
  | case2 c cs hc ih =>
    rw [List.cons_append, tokenCount_cons_of_isDigit hc, tokenCount_cons_of_isDigit hc]
    have hrest := tokenCount_dropWhile_append_le (tokenCount_dropWhile_isDigit_le v) ih
    omega
  | case3 c cs hc hm ih =>
    obtain ⟨rfl, hdigit⟩ := hm
    have hdigit' : startsWithDigit (cs ++ v) = true := by
      cases cs with
      | nil => cases hdigit
      | cons d ds => exact hdigit
    rw [List.cons_append, tokenCount_minus hdigit', tokenCount_minus hdigit]
    have hrest := tokenCount_dropWhile_append_le (tokenCount_dropWhile_isDigit_le v) ih
    omega
  | case4 c cs hc hm hw ih =>
    rw [List.cons_append, tokenCount_cons_of_isWordStart hw, tokenCount_cons_of_isWordStart hw]
    have hrest := tokenCount_dropWhile_append_le (tokenCount_dropWhile_isWordChar_le v) ih
    omega
  | case5 c cs hc hm hw ih =>
    have hminus : c = '-' → startsWithDigit cs = false := fun h => Bool.eq_false_iff.2 fun hdigit => hm ⟨h, hdigit⟩
    rw [Bool.not_eq_true] at hc hw
    rw [tokenCount_cons_ofChar hc hw hminus, List.cons_append]
    by_cases hsign : c = '-' ∧ startsWithDigit (cs ++ v) = true
    · -- The `-` at the end of the first text becomes the sign of a numeral.
      obtain ⟨rfl, hdigit⟩ := hsign
      obtain rfl : cs = [] := by
        cases cs with
        | nil => rfl
        | cons d ds =>
          have hfalse := hminus rfl
          rw [List.cons_append, startsWithDigit] at hdigit
          rw [startsWithDigit, hdigit] at hfalse
          cases hfalse
      have hone : [Lexeme.ofChar '-'].countP Lexeme.isSignificant = 1 := by decide
      rw [List.nil_append] at hdigit ⊢
      rw [tokenCount_minus hdigit, hone]
      have hdrop := tokenCount_dropWhile_isDigit_le v
      omega
    · rw [tokenCount_cons_ofChar hc hw fun h => Bool.eq_false_iff.2 fun hdigit => hsign ⟨h, hdigit⟩]
      omega

end Text

/-! ### The lexeme of a printed token -/

namespace Token

/-- Whether the texts of two tokens run together if nothing stands between them. -/
def fuses : Token → Token → Bool
  | operator .sub, literal value => 0 ≤ value.toInt
  | name _, name _ => true
  | name _, literal value => 0 ≤ value.toInt
  | literal _, literal value => 0 ≤ value.toInt
  | _, _ => false

/-- The lexeme that a token is printed as. -/
inductive Prints : Token → Lexeme → Prop where
  | literal (value : Int64) :
      Prints (literal value) (.numeral (decide (value.toInt < 0)) (Text.decimal value.toInt.natAbs))
  | name {x : Text} : x.isIdentifier = true → Prints (name x) (.word x)
  | operator (op : Operator) : Prints (operator op) (.operator op)
  | lparen : Prints lparen .lparen
  | rparen : Prints rparen .rparen

/-- Tokens printed in order, each behind its own text. -/
def spaced (ps : List (Text × Token)) : Text := ps.flatMap fun p => p.1 ++ p.2.text

private theorem exists_prints {t : Token} (ht : t ≠ stop) (hname : ∀ x, t = name x → x.isIdentifier = true) :
    ∃ l, Prints t l := by
  cases t with
  | literal value => exact ⟨_, .literal value⟩
  | name x => exact ⟨_, .name (hname x rfl)⟩
  | operator op => exact ⟨_, .operator op⟩
  | lparen => exact ⟨_, .lparen⟩
  | rparen => exact ⟨_, .rparen⟩
  | stop => exact absurd rfl ht

end Token

theorem Text.isDigits_decimal (n : Nat) : (decimal n).isDigits = true :=
  isDigits_iff.2 ⟨Nat.toDigits_ne_nil, fun _ hd => Nat.isDigit_of_mem_toDigits (by decide) (by decide) hd⟩

namespace Token.Prints

variable {t u : Token} {l m : Lexeme}

private theorem text_eq (h : Prints t l) : l.text = t.text := by
  cases h with
  | literal value =>
    rw [Lexeme.text, Token.text, Text.signedDecimal]
    by_cases hsign : value.toInt < 0 <;> simp [hsign]
  | name | operator | lparen | rparen => rfl

private theorem read_eq (h : Prints t l) {limits : Limits}
    (hname : ∀ x, t = .name x → x.length ≤ limits.identifierLength) :
    l.read limits = .token t := by
  cases h with
  | literal value =>
    have hvalue : value.toInt =
        Lexeme.exactValue (decide (value.toInt < 0)) (Text.decimal value.toInt.natAbs) := by
      rw [Lexeme.exactValue, ← Text.decimalValue_eq_placeValue, Text.decimalValue, Text.decimal,
        Nat.ofDigitChars_ten_toDigits]
      by_cases hsign : value.toInt < 0
      · simp only [hsign, decide_true, if_true]
        omega
      · simp only [hsign, decide_false, Bool.false_eq_true, if_false]
        omega
    exact Lexeme.read_numeral hvalue limits
  | @name x hx => rw [Lexeme.read, if_neg (Nat.not_lt.2 (hname x rfl))]
  | operator | lparen | rparen => rfl

/-- A printed token ends where no word goes on. -/
private theorem ends (h : Prints t l) {s : Text} (hs : ∀ c ∈ s.head?, Text.isWordChar c = false) : l.Ends s := by
  have hdigit := Text.startsWithDigit_eq_false hs
  cases h with
  | literal value => exact ⟨Text.isDigits_decimal _, hdigit⟩
  | name hx => exact ⟨hx, hs⟩
  | operator op => exact fun _ => hdigit
  | lparen | rparen => trivial

/-- Only a literal without a sign is printed with a digit in front. -/
private theorem eq_literal_of_startsWithDigit (h : Prints u m) {s : Text}
    (hdigit : Text.startsWithDigit (m.text ++ s) = true) : ∃ value : Int64, u = .literal value ∧ 0 ≤ value.toInt := by
  cases h with
  | literal value =>
    refine ⟨value, rfl, ?_⟩
    by_contra hsign
    have hneg : value.toInt < 0 := by omega
    rw [Lexeme.text, decide_eq_true hneg] at hdigit
    cases hdigit
  | @name x hx =>
    cases x with
    | nil => cases hx
    | cons c x =>
      simp only [Text.isIdentifier, Bool.and_eq_true] at hx
      change c.isDigit = true at hdigit
      rw [Text.not_isDigit_of_isWordStart hx.1] at hdigit
      cases hdigit
  | operator op => cases op <;> cases hdigit
  | lparen | rparen => cases hdigit

/-- Only names and literals without a sign are printed with a word character in front. -/
private theorem eq_name_or_eq_literal (h : Prints u m) {s : Text} {c : Char} (hc : c ∈ (m.text ++ s).head?)
    (hword : Text.isWordChar c = true) :
    (∃ x, u = .name x) ∨ ∃ value : Int64, u = .literal value ∧ 0 ≤ value.toInt := by
  cases h with
  | literal value =>
    refine .inr ⟨value, rfl, ?_⟩
    by_contra hsign
    have hneg : value.toInt < 0 := by omega
    rw [Lexeme.text, decide_eq_true hneg] at hc
    cases hc
    cases hword
  | @name x hx => exact .inl ⟨x, rfl⟩
  | operator op =>
    cases hc
    cases op <;> cases hword
  | lparen | rparen =>
    cases hc
    cases hword

/-- A printed token ends before another one that it does not run together with. -/
private theorem ends_of_fuses_eq_false (hl : Prints t l) (hm : Prints u m) (h : t.fuses u = false) (s : Text) :
    l.Ends (m.text ++ s) := by
  have hdigit : t.fuses u = false → (∀ value : Int64, 0 ≤ value.toInt → t.fuses (.literal value) = true) →
      Text.startsWithDigit (m.text ++ s) = false := by
    intro hfuses hliteral
    refine Bool.eq_false_iff.2 fun hdigit => ?_
    obtain ⟨value, rfl, hsign⟩ := hm.eq_literal_of_startsWithDigit hdigit
    rw [hliteral value hsign] at hfuses
    cases hfuses
  cases hl with
  | literal value => exact ⟨Text.isDigits_decimal _, hdigit h fun _ hsign => by simpa [fuses] using hsign⟩
  | name hx =>
    refine ⟨hx, fun c hc => Bool.eq_false_iff.2 fun hword => ?_⟩
    rcases hm.eq_name_or_eq_literal hc hword with ⟨y, rfl⟩ | ⟨value, rfl, hsign⟩
    · cases h
    · simp [fuses] at h
      omega
  | operator op =>
    rintro rfl
    exact hdigit h fun _ hsign => by simpa [fuses] using hsign
  | lparen | rparen => trivial

/-- Two tokens that run together make a single lexeme. -/
private theorem exists_fused (hl : Prints t l) (hm : Prints u m) (h : t.fuses u = true) :
    ∃ k : Lexeme, k.Ends [] ∧ k.text = l.text ++ m.text := by
  have hunsigned : ∀ {value : Int64}, decide (0 ≤ value.toInt) = true → decide (value.toInt < 0) = false := by
    intro value hvalue
    simp only [decide_eq_true_eq, decide_eq_false_iff_not] at hvalue ⊢
    omega
  have hdigits : ∀ n, ∀ d ∈ Text.decimal n, d.isDigit = true := fun n =>
    (Text.isDigits_iff.1 (Text.isDigits_decimal n)).2
  cases hm with
  | literal value =>
    cases hl with
    | literal first =>
      refine ⟨.numeral (decide (first.toInt < 0))
        (Text.decimal first.toInt.natAbs ++ Text.decimal value.toInt.natAbs), ?_, ?_⟩
      · exact ⟨Text.isDigits_append (Text.isDigits_decimal _) (hdigits _), rfl⟩
      · rw [hunsigned h, Lexeme.text_numeral, Lexeme.text_numeral, List.append_assoc]
        rfl
    | @name x hx =>
      refine ⟨.word (x ++ Text.decimal value.toInt.natAbs), ⟨?_, by simp⟩, ?_⟩
      · exact Text.isIdentifier_append hx fun d hd => Text.isWordChar_of_isDigit (hdigits _ d hd)
      · rw [hunsigned h]
        rfl
    | operator op =>
      cases op with
      | add | mul | div => cases h
      | sub =>
        refine ⟨.numeral true (Text.decimal value.toInt.natAbs), ⟨Text.isDigits_decimal _, rfl⟩, ?_⟩
        rw [hunsigned h]
        rfl
    | lparen | rparen => cases h
  | @name y hy =>
    cases hl with
    | @name x hx =>
      exact ⟨.word (x ++ y), ⟨Text.isIdentifier_append hx (Text.isWordChar_of_mem hy), by simp⟩, rfl⟩
    | literal | lparen | rparen => cases h
    | operator op => cases op <;> cases h
  | operator | lparen | rparen =>
    cases hl with
    | operator op => cases op <;> cases h
    | literal | name | lparen | rparen => cases h

end Token.Prints

/-! ### Scanning printed tokens -/

namespace Token

/-- Whether two tokens, each behind a text, are kept apart where they would run together. -/
def Separated (p q : Text × Token) : Prop := p.2.fuses q.2 = true → q.1 ≠ []

instance : DecidableRel Separated := fun p q => inferInstanceAs (Decidable (p.2.fuses q.2 = true → q.1 ≠ []))

private theorem spaced_cons (p : Text × Token) (ps : List (Text × Token)) :
    spaced (p :: ps) = p.1 ++ (p.2.text ++ spaced ps) := by
  rw [spaced, List.flatMap_cons, List.append_assoc, spaced]

private theorem Prints.tokenCount_text_le {t : Token} {l : Lexeme} (h : Prints t l) : t.text.tokenCount ≤ 1 := by
  rw [← h.text_eq]
  exact Text.tokenCount_le_one (h.ends (by simp))

private theorem tokenCount_gap_append_le {gap : Text} (h : gap.IsGap) (u v : Text) :
    Text.tokenCount (gap ++ (u ++ v)) ≤ u.tokenCount + v.tokenCount := by
  have hgap := Text.tokenCount_gap h
  have houter := Text.tokenCount_append_le gap (u ++ v)
  have hinner := Text.tokenCount_append_le u v
  omega

section Printable

variable {ps : List (Text × Token)} (hgaps : ∀ p ∈ ps, p.1.IsGap) (hprints : ∀ p ∈ ps, ∃ l, Prints p.2 l)
include hgaps hprints

/-- A printed token ends before the printed tokens behind it, if it is kept apart from the first of them. -/
private theorem Prints.ends_spaced {p : Text × Token} {l : Lexeme} (hl : Prints p.2 l)
    (hp : ∀ q ∈ ps.head?, Separated p q) : l.Ends (spaced ps) := by
  cases ps with
  | nil => exact hl.ends (by simp [spaced])
  | cons q ps =>
    obtain ⟨hgap, -⟩ := List.forall_mem_cons.1 hgaps
    obtain ⟨⟨m, hm⟩, -⟩ := List.forall_mem_cons.1 hprints
    have hseparated := hp q rfl
    rw [spaced_cons]
    rcases hq : q.1 with _ | ⟨c, gap⟩
    · have hfuses : p.2.fuses q.2 = false := Bool.eq_false_iff.2 fun h => hseparated h hq
      rw [List.nil_append, ← hm.text_eq]
      exact hl.ends_of_fuses_eq_false hm hfuses _
    · rw [hq] at hgap
      refine hl.ends fun d hd => ?_
      cases hd
      exact Text.not_isWordChar_of_isSpace (hgap c List.mem_cons_self)

/-- Printed tokens that are kept apart are scanned into the tokens. -/
theorem ofLexemes_spaced {limits : Limits} {count : Nat} (hchain : ps.IsChain Separated)
    (hnames : ∀ p ∈ ps, ∀ x, p.2 = .name x → x.length ≤ limits.identifierLength)
    (hcount : count + ps.length ≤ limits.tokens) :
    Scan.ofLexemes limits count (spaced ps).lexemes =
      { skipped := [], result := .ok (ps.map Prod.snd ++ [.stop]) } := by
  induction ps generalizing count with
  | nil =>
    rw [spaced, List.flatMap_nil, Text.lexemes_nil]
    rfl
  | cons p ps ih =>
    obtain ⟨hnext, htail⟩ := List.isChain_cons.1 hchain
    obtain ⟨hgap, hgaps'⟩ := List.forall_mem_cons.1 hgaps
    obtain ⟨⟨l, hl⟩, hprints'⟩ := List.forall_mem_cons.1 hprints
    obtain ⟨hname, hnames'⟩ := List.forall_mem_cons.1 hnames
    rw [List.length_cons] at hcount
    have hrest : Scan.ofLexemes limits (count + 1) (spaced ps).lexemes =
        { skipped := [], result := .ok (ps.map Prod.snd ++ [.stop]) } :=
      ih hgaps' hprints' htail hnames' (by omega)
    have hends := hl.ends_spaced hgaps' hprints' hnext
    rw [spaced_cons, Text.lexemes_gap_append hgap, Scan.ofLexemes_spaces, ← hl.text_eq, hends.lexemes_append]
    exact Scan.ofLexemes_cons_token (hl.read_eq hname) (by omega) hrest

/-- Printed tokens are cut into at most as many tokens. -/
private theorem tokenCount_spaced_le : (spaced ps).tokenCount ≤ ps.length := by
  induction ps with
  | nil => exact Nat.le_of_eq Text.tokenCount_nil
  | cons p ps ih =>
    obtain ⟨hgap, hgaps'⟩ := List.forall_mem_cons.1 hgaps
    obtain ⟨⟨l, hl⟩, hprints'⟩ := List.forall_mem_cons.1 hprints
    have hrest := ih hgaps' hprints'
    have hone := hl.tokenCount_text_le
    have hle := tokenCount_gap_append_le hgap p.2.text (spaced ps)
    rw [spaced_cons, List.length_cons]
    omega

/-- Printed tokens are cut into as many tokens only if they are kept apart. -/
private theorem isChain_of_tokenCount_spaced (h : (spaced ps).tokenCount = ps.length) : ps.IsChain Separated := by
  induction ps with
  | nil => exact List.isChain_nil
  | cons p ps ih =>
    obtain ⟨hgap, hgaps'⟩ := List.forall_mem_cons.1 hgaps
    obtain ⟨⟨l, hl⟩, hprints'⟩ := List.forall_mem_cons.1 hprints
    rw [spaced_cons, List.length_cons] at h
    refine List.isChain_cons.2 ⟨fun q hq hfuses hempty => ?_, ih hgaps' hprints' ?_⟩
    · -- Two tokens that run together make one lexeme, and the others do not make up for it.
      cases ps with
      | nil => cases hq
      | cons r ps =>
        cases hq
        obtain ⟨⟨m, hm⟩, hlater⟩ := List.forall_mem_cons.1 hprints'
        obtain ⟨k, hk, htext⟩ := hl.exists_fused hm hfuses
        have hone := Text.tokenCount_le_one hk
        rw [htext, hl.text_eq, hm.text_eq] at hone
        have hrest := tokenCount_spaced_le (List.forall_mem_cons.1 hgaps').2 hlater
        have hle := tokenCount_gap_append_le hgap (p.2.text ++ q.2.text) (spaced ps)
        rw [spaced_cons, hempty, List.nil_append, ← List.append_assoc p.2.text, List.length_cons] at h
        omega
    · have hone := hl.tokenCount_text_le
      have hrest := tokenCount_spaced_le hgaps' hprints'
      have hle := tokenCount_gap_append_le hgap p.2.text (spaced ps)
      omega

end Printable

/-- Texts with a blank between them. -/
private theorem intercalate_text (t : Token) (ts : List Token) :
    List.intercalate [' '] ((t :: ts).map Token.text) = spaced (([], t) :: ts.map fun u => ([' '], u)) := by
  induction ts generalizing t with
  | nil => simp [spaced, List.intercalate]
  | cons u ts ih =>
    rw [List.map_cons, List.map_cons, List.intercalate_cons_cons, ← List.map_cons, ih u]
    simp only [spaced_cons, List.map_cons, List.nil_append, List.append_assoc]

private theorem scan_intercalate {limits : Limits} {ts : List Token} (hprints : ∀ t ∈ ts, ∃ l, Prints t l)
    (hnames : ∀ t ∈ ts, ∀ x, t = .name x → x.length ≤ limits.identifierLength) (hlength : ts.length ≤ limits.tokens) :
    Text.scan limits (List.intercalate [' '] (ts.map Token.text)) =
      { skipped := [], result := .ok (ts ++ [.stop]) } := by
  cases ts with
  | nil =>
    rw [Text.scan, List.map_nil, List.intercalate_nil, Text.lexemes_nil]
    rfl
  | cons t ts =>
    have hmap : (([], t) :: ts.map fun u => ([' '], u) : List (Text × Token)).map Prod.snd = t :: ts := by
      rw [List.map_cons, List.map_map]
      exact congrArg (t :: ·) (List.map_id ts)
    have hpairwise : (([], t) :: ts.map fun u => ([' '], u) : List (Text × Token)).Pairwise Separated := by
      refine List.pairwise_cons.2 ⟨fun q hq => ?_, List.pairwise_map.2 (List.pairwise_of_forall fun _ _ _ => by simp)⟩
      obtain ⟨u, -, rfl⟩ := List.mem_map.1 hq
      exact fun _ => by simp
    rw [intercalate_text, Text.scan, ← hmap]
    apply ofLexemes_spaced _ _ hpairwise.isChain
    · intro p hp
      exact hnames p.2 (hmap ▸ List.mem_map_of_mem hp)
    · rw [← List.length_map Prod.snd, hmap, Nat.zero_add]
      exact hlength
    · refine List.forall_mem_cons.2 ⟨Text.isGap_nil, List.forall_mem_map.2 fun u _ => ?_⟩
      exact Text.isGap_of_eq (.inr rfl)
    · intro p hp
      exact hprints p.2 (hmap ▸ List.mem_map_of_mem hp)

/-- Printed tokens are scanned back exactly if space stands wherever two of them would run together, and so the tokens
that a trace shows are always scanned back. -/
theorem scan_spaced {limits : Limits} {ps : List (Text × Token)} (hgaps : ∀ p ∈ ps, p.1.IsGap)
    (htokens : ∀ p ∈ ps, p.2 ≠ .stop)
    (hnames : ∀ p ∈ ps, ∀ x, p.2 = .name x → x.isIdentifier = true ∧ x.length ≤ limits.identifierLength)
    (hlength : ps.length ≤ limits.tokens) :
    ((spaced ps).scan limits = { skipped := [], result := .ok (ps.map Prod.snd ++ [.stop]) } ↔
        ps.IsChain Separated) ∧
      ∃ shown : Text, shown = List.intercalate [' '] ((ps.map Prod.snd).map Token.text) ∧
        (∀ coloured, Trace.text coloured (.polish (ps.map Prod.snd)) =
          Style.cyan.paint coloured "Postfix:".toList ++ ' ' :: Style.dimmed.paint coloured shown ++ ['\n']) ∧
        shown.scan limits = { skipped := [], result := .ok (ps.map Prod.snd ++ [.stop]) } := by
  have hprints : ∀ p ∈ ps, ∃ l, Prints p.2 l := fun p hp =>
    exists_prints (htokens p hp) fun x hx => (hnames p hp x hx).1
  have hshort : ∀ p ∈ ps, ∀ x, p.2 = .name x → x.length ≤ limits.identifierLength := fun p hp x hx =>
    (hnames p hp x hx).2
  refine ⟨⟨fun h => ?_, fun hchain => ?_⟩, _, rfl, fun _ => rfl, ?_⟩
  · -- A scan that gives the tokens back has as many lexemes as there are tokens.
    have hresult := congrArg Scan.result h
    obtain ⟨-, -, ts, heq, hdenotes⟩ := Scan.forall₂_denotes (Nat.zero_le _) hresult
    apply isChain_of_tokenCount_spaced hgaps hprints
    rw [Text.tokenCount, List.countP_eq_length_filter, hdenotes.length_eq, ← List.append_cancel_right heq,
      List.length_map]
  · exact ofLexemes_spaced hgaps hprints hchain hshort (by omega)
  · apply scan_intercalate
    · intro t ht
      obtain ⟨p, hp, rfl⟩ := List.mem_map.1 ht
      exact hprints p hp
    · intro t ht
      obtain ⟨p, hp, rfl⟩ := List.mem_map.1 ht
      exact hshort p hp
    · rw [List.length_map]
      exact hlength

/-- The least literal before a name, and a difference of a negative literal.  The name runs together with the literal
behind it if nothing stands between them. -/
theorem scan_spaced_minValue :
    let ts : List Token := [.literal Int64.minValue, .name ['a'], .literal 5, .operator .sub, .literal (-3)]
    Text.scan {} "-9223372036854775808a 5--3".toList = { skipped := [], result := .ok (ts ++ [.stop]) } ∧
      Text.scan {} "-9223372036854775808a5--3".toList ≠ { skipped := [], result := .ok (ts ++ [.stop]) } := by
  have happlied : ∀ gap : Text, gap.IsGap →
      let ps : List (Text × Token) := [([], .literal Int64.minValue), ([], .name ['a']), (gap, .literal 5),
        ([], .operator .sub), ([], .literal (-3))]
      (spaced ps).scan {} = { skipped := [], result := .ok (ps.map Prod.snd ++ [.stop]) } ↔ ps.IsChain Separated := by
    intro gap hgap ps
    refine (scan_spaced ?_ ?_ ?_ (by simp [ps])).1
    · simp [ps, hgap, Text.isGap_nil]
    · simp [ps]
    · simp [ps]
      decide
  constructor
  · exact (happlied [' '] (Text.isGap_of_eq (.inr rfl))).2 (by decide)
  · exact fun h => absurd ((happlied [] Text.isGap_nil).1 h) (by decide)

end Token

end ArithMips
