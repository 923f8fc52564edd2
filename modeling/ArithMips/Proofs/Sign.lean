import ArithMips.Proofs.Infix
import ArithMips.Proofs.Language
import Mathlib.Algebra.Order.BigOperators.Group.List
import Mathlib.Algebra.Order.Group.Nat

/-!
# Subtraction written as a sign

`Crowded n ts s` says that the text `s` writes the tokens `ts` and that `n` of its subtractions stand directly before
the first digit of a literal.  There the scan takes the `-` as the sign of the numeral, so it reads the tokens with a
negative literal in place of each such pair (`Signed`, `Crowded.scan`).

Each pair costs an operator and no operand.  Since only lists with one operand more than operators are reordered into
a tree, an infix expression in which this happens is never accepted, and within the limits it is reported as malformed
(`Compile.expression_of_crowded`).
-/

namespace ArithMips

open Token (Apart)

/-- The spellings of a list of tokens with `n` subtractions directly before the first digit of a literal. -/
inductive Crowded : Nat → List Token → Text → Prop where
  | nil {gap : Text} : gap.IsGap → Crowded 0 [] gap
  | cons {n : Nat} {t : Token} {ts : List Token} {gap w s : Text} : gap.IsGap → Spells t w →
      (t = .operator .sub → s.startsWithDigit = false) → Crowded n ts s → Crowded n (t :: ts) (gap ++ w ++ s)
  | sign {n : Nat} {value : Int64} {ts : List Token} {gap w s : Text} : gap.IsGap → Spells (.literal value) w →
      w.startsWithDigit = true → Crowded n ts s →
      Crowded (n + 1) (.operator .sub :: .literal value :: ts) (gap ++ '-' :: w ++ s)

/-- Tokens in which `n` subtractions of a literal have become negative literals. -/
inductive Signed : Nat → List Token → List Token → Prop where
  | nil : Signed 0 [] []
  | cons {n : Nat} {ts us : List Token} (t : Token) : Signed n ts us → Signed n (t :: ts) (t :: us)
  | sign {n : Nat} {ts us : List Token} (value : Int64) : Signed n ts us →
      Signed (n + 1) (.operator .sub :: .literal value :: ts) (.literal (-value) :: us)

/-! ### What the signs change -/

namespace Signed

private theorem countP_isOperand {n : Nat} {ts us : List Token} (h : Signed n ts us) :
    us.countP Token.isOperand = ts.countP Token.isOperand := by
  induction h with
  | nil => rfl
  | cons t _ ih => rw [List.countP_cons, List.countP_cons, ih]
  | sign value _ ih => simpa [List.countP_cons, Token.isOperand] using ih

/-- Every sign costs an operator. -/
private theorem countP_isOperator {n : Nat} {ts us : List Token} (h : Signed n ts us) :
    us.countP Token.isOperator + n = ts.countP Token.isOperator := by
  induction h with
  | nil => rfl
  | cons t _ ih =>
    rw [List.countP_cons, List.countP_cons]
    omega
  | sign value _ ih =>
    simp only [List.countP_cons, Token.isOperator]
    simp
    omega

private theorem length_add {n : Nat} {ts us : List Token} (h : Signed n ts us) : us.length + n = ts.length := by
  induction h with
  | nil => rfl
  | cons | sign =>
    simp only [List.length_cons]
    omega

/-- The instruction of a subtraction is not written any more. -/
private theorem sum_codeSize {n : Nat} {ts us : List Token} (h : Signed n ts us) :
    (us.map Token.codeSize).sum + n = (ts.map Token.codeSize).sum := by
  induction h with
  | nil => rfl
  | cons t _ ih =>
    simp only [List.map_cons, List.sum_cons]
    omega
  | sign value _ ih =>
    simp only [List.map_cons, List.sum_cons, Token.codeSize, Operator.codeSize]
    omega

theorem closes {n : Nat} {ts us : List Token} (h : Signed n ts us) (k : Nat) :
    Polish.closes k us = Polish.closes k ts := by
  induction h generalizing k with
  | nil => rfl
  | cons t _ ih =>
    cases t with
    | rparen =>
      cases k with
      | zero => rfl
      | succ k => exact ih k
    | lparen => exact ih (k + 1)
    | literal | name | operator | stop => simpa only [Polish.closes] using ih k
  | sign value _ ih => simpa only [Polish.closes] using ih k

private theorem mem {n : Nat} {ts us : List Token} (h : Signed n ts us) {t : Token} (ht : t ∈ us) :
    t ∈ ts ∨ ∃ value, t = .literal value := by
  induction h with
  | nil => cases ht
  | cons u _ ih =>
    rcases List.mem_cons.1 ht with rfl | ht
    · exact .inl List.mem_cons_self
    · exact (ih ht).imp_left (List.mem_cons_of_mem _)
  | sign value _ ih =>
    rcases List.mem_cons.1 ht with rfl | ht
    · exact .inr ⟨_, rfl⟩
    · exact (ih ht).imp_left fun ht => List.mem_cons_of_mem _ (List.mem_cons_of_mem _ ht)

private theorem name_mem {n : Nat} {ts us : List Token} (h : Signed n ts us) {x : Text} (hx : .name x ∈ us) :
    .name x ∈ ts := by
  rcases h.mem hx with hx | ⟨value, hx⟩
  · exact hx
  · cases hx

private theorem stop_notMem {n : Nat} {ts us : List Token} (h : Signed n ts us) (hts : .stop ∉ ts) : .stop ∉ us := by
  intro hus
  rcases h.mem hus with hus | ⟨value, hus⟩
  · exact hts hus
  · cases hus

end Signed

/-! ### Scanning a crowded text -/

/-- A numeral without a sign, behind a `-`. -/
private theorem Spells.exists_lexeme_minus {value : Int64} {w : Text} (h : Spells (.literal value) w)
    (hdigit : w.startsWithDigit = true) {s : Text} (hs : ∀ c ∈ s.head?, Text.isWordChar c = false) (limits : Limits) :
    ∃ l, Text.lexemes ('-' :: w ++ s) = l :: Text.lexemes s ∧ l.read limits = .token (.literal (-value)) := by
  cases h with
  | @literal _ negative digits hne hdigits hvalue =>
    cases negative with
    | true => cases hdigit
    | false =>
      have hneg : (-value).toInt = Lexeme.exactValue true digits := by
        have hnonneg : 0 ≤ value.toInt := by
          rw [hvalue]
          exact Int.natCast_nonneg _
        have hle := Int64.toInt_le value
        have hmax : Int64.maxValue.toInt = 2 ^ 63 - 1 := by decide
        have hval : Lexeme.exactValue true digits = -value.toInt := by
          rw [hvalue]
          rfl
        rw [Int64.toInt_neg, hval, Int.bmod_eq_of_le (by omega) (by omega)]
      refine ⟨.numeral true digits, ?_, ?_⟩
      · exact @Text.lexemes_numeral_append true digits hne hdigits s (Text.startsWithDigit_eq_false hs)
      · exact Lexeme.read_numeral hneg limits

namespace Crowded

theorem not_isWordChar_head {n : Nat} {ts : List Token} {s : Text} (h : Crowded n ts s)
    (hts : ∀ t ∈ ts.head?, t.startsOperand = false) : ∀ c ∈ s.head?, Text.isWordChar c = false := by
  cases h with
  | nil hgap =>
    intro c hc
    exact Text.not_isWordChar_of_isSpace (hgap c (List.mem_of_head? hc))
  | cons hgap hw => exact hw.not_isWordChar_head (hts _ rfl) hgap
  | @sign _ _ _ gap w s hgap =>
    have hminus := (Spells.operator .sub).not_isWordChar_head rfl hgap (s := w ++ s)
    simpa [Operator.symbol] using hminus

/-- No letter or digit directly follows an operand. -/
theorem not_isWordChar_behind {n : Nat} {t : Token} {ts : List Token} {s : Text} (h : Crowded n ts s)
    (ht : t.isOperand = true) (hnext : ∀ u ∈ ts.head?, Apart t u) : ∀ c ∈ s.head?, Text.isWordChar c = false :=
  h.not_isWordChar_head fun u hu => (hnext u hu).startsOperand_eq_false ht

private theorem exists_signed {n : Nat} {ts : List Token} {s : Text} (h : Crowded n ts s) (hchain : ts.IsChain Apart) :
    ∃ us, Signed n ts us ∧ ∀ (limits : Limits) (count : Nat),
      (∀ x, .name x ∈ us → x.length ≤ limits.identifierLength) → count + us.length ≤ limits.tokens →
        Scan.ofLexemes limits count s.lexemes = { skipped := [], result := .ok (us ++ [.stop]) } := by
  induction h with
  | @nil gap hgap =>
    refine ⟨[], .nil, fun limits count _ _ => ?_⟩
    rw [← List.append_nil gap, Text.lexemes_gap_append hgap, Scan.ofLexemes_spaces, Text.lexemes]
    rfl
  | @cons n t ts gap w s hgap hw hminus hs ih =>
    obtain ⟨hnext, htail⟩ := List.isChain_cons.1 hchain
    obtain ⟨us, hus, hscan⟩ := ih htail
    refine ⟨t :: us, .cons t hus, fun limits count hnames hcount => ?_⟩
    rw [List.length_cons] at hcount
    have hname : ∀ x, t = .name x → x.length ≤ limits.identifierLength := by
      rintro x rfl
      exact hnames x List.mem_cons_self
    obtain ⟨l, hl, hread⟩ := hw.exists_lexeme hname hminus fun ht => hs.not_isWordChar_behind ht hnext
    rw [List.append_assoc, Text.lexemes_gap_append hgap, Scan.ofLexemes_spaces, hl]
    exact Scan.ofLexemes_cons_token hread (by omega)
      (hscan limits (count + 1) (fun x hx => hnames x (List.mem_cons_of_mem _ hx)) (by omega))
  | @sign n value ts gap w s hgap hw hdigit hs ih =>
    obtain ⟨-, hchain⟩ := List.isChain_cons.1 hchain
    obtain ⟨hnext, htail⟩ := List.isChain_cons.1 hchain
    obtain ⟨us, hus, hscan⟩ := ih htail
    refine ⟨.literal (-value) :: us, .sign value hus, fun limits count hnames hcount => ?_⟩
    rw [List.length_cons] at hcount
    -- The `-` and the numeral are one lexeme.
    obtain ⟨l, hl, hread⟩ := hw.exists_lexeme_minus hdigit (hs.not_isWordChar_behind rfl hnext) limits
    rw [List.append_assoc, Text.lexemes_gap_append hgap, Scan.ofLexemes_spaces, hl]
    exact Scan.ofLexemes_cons_token hread (by omega)
      (hscan limits (count + 1) (fun x hx => hnames x (List.mem_cons_of_mem _ hx)) (by omega))

/-- A crowded text is scanned into its tokens with the signs taken in, if it is within the limits, and never into
other tokens. -/
protected theorem scan {n : Nat} {ts : List Token} {s : Text} (h : Crowded n ts s) (hchain : ts.IsChain Apart) :
    ∃ us, Signed n ts us ∧
      (∀ limits : Limits, (∀ x, .name x ∈ us → x.length ≤ limits.identifierLength) → us.length ≤ limits.tokens →
        s.scan limits = { skipped := [], result := .ok (us ++ [.stop]) }) ∧
      ∀ (limits : Limits) (tokens : List Token), (s.scan limits).result = .ok tokens → tokens = us ++ [.stop] := by
  obtain ⟨us, hus, hscan⟩ := h.exists_signed hchain
  refine ⟨us, hus, fun limits hnames hlen => hscan limits 0 hnames (by omega), fun limits tokens hok => ?_⟩
  -- Under limits with room for everything the scan is the same.
  let wide : Limits :=
    { limits with
      tokens := limits.tokens + us.length
      identifierLength := limits.identifierLength + (us.map fun t => t.text.length).sum }
  have hnames : ∀ x, .name x ∈ us → x.length ≤ wide.identifierLength := by
    intro x hx
    have hle : x.length ≤ (us.map fun t => t.text.length).sum := List.le_sum_of_mem (List.mem_map.2 ⟨_, hx, rfl⟩)
    exact Nat.le_add_left_of_le hle
  have hwide := hscan wide 0 hnames (by simp [wide])
  have hmono : s.scan wide = s.scan limits := by
    refine Scan.ofLexemes_mono (Nat.le_add_right _ _) (Nat.le_add_right _ _) fun e he => ?_
    rw [Text.scan, he] at hok
    cases hok
  rw [← hmono, Text.scan, hwide] at hok
  exact (Except.ok.inj hok).symm

end Crowded

/-! ### Infix expressions with signs -/

private theorem sum_codeSize_of_writes {l : Level} {e : Expr} {ts : List Token} (h : Writes l e ts) :
    (ts.map Token.codeSize).sum = e.codeSize := by
  induction h with
  | literal | name => rfl
  | paren _ ih => simpa [Token.codeSize] using ih
  | term _ ih | sum _ ih => exact ih
  | product _ _ _ ihl ihr | addition _ _ _ ihl ihr =>
    simp only [List.map_append, List.map_cons, List.sum_append, List.sum_cons, Token.codeSize, Expr.codeSize]
    omega

private theorem stop_notMem_of_writes {l : Level} {e : Expr} {ts : List Token} (h : Writes l e ts) : .stop ∉ ts := by
  induction h with
  | literal | name => simp
  | paren _ ih => simpa using ih
  | term _ ih | sum _ ih => exact ih
  | product _ _ _ ihl ihr | addition _ _ _ ihl ihr => simp [ihl, ihr]

/-- An infix expression has one operand more than operators, and its parentheses match. -/
private theorem counts_of_writes {e : Expr} {ts : List Token} (h : Writes .sum e ts) :
    ts.countP Token.isOperand = ts.countP Token.isOperator + 1 ∧ Polish.closes 0 ts = true := by
  have hstop := stop_notMem_of_writes h
  obtain ⟨hcloses, hout⟩ := closes_of_polish hstop (Polish.polish_of_writes h true [])
  exact ⟨countP_isOperand_of_polish hstop hout, hcloses⟩

/-- The sum of the code sizes is the same in any order, and parentheses have no code. -/
private theorem sum_codeSize_ofTokens {ts : List Token} (hstop : .stop ∉ ts) :
    ((Polish.ofTokens ts []).output.map Token.codeSize).sum = (ts.map Token.codeSize).sum := by
  have hsplit : ∀ us : List Token, (us.map Token.codeSize).sum =
      ((us.filter Token.isOperand).map Token.codeSize).sum +
        ((us.filter Token.isOperator).map Token.codeSize).sum := by
    intro us
    induction us with
    | nil => rfl
    | cons t us ih =>
      cases t with
      | literal | name | operator =>
        simp [List.filter_cons, Token.isOperand, Token.isOperator, ih]
        omega
      | lparen | rparen | stop => simpa [List.filter_cons, Token.isOperand, Token.isOperator, Token.codeSize] using ih
  have hoperators := (Polish.filter_isOperator_ofTokens hstop []).map Token.codeSize
  rw [Polish.waiting, List.append_nil] at hoperators
  rw [hsplit, hsplit ts, Polish.filter_isOperand_ofTokens hstop, hoperators.sum_eq]

/-- Tokens that have lost operators are not reordered into a tree, so lowering them fails. -/
private theorem Signed.plan_ne_ok {n : Nat} {e : Expr} {ts us : List Token} (h : Signed n ts us) (hn : 0 < n)
    (hw : Writes .sum e ts) (symbols : SymbolTable) (o : Operand) :
    (plan symbols 1 (Polish.ofTokens us []).output []).result ≠ .ok o := by
  intro ho
  obtain ⟨e', he'⟩ := eq_postorder_of_plan ho
  have hus := countP_isOperand_of_polish (h.stop_notMem (stop_notMem_of_writes hw)) he'
  have hts := (counts_of_writes hw).1
  have hoperands := h.countP_isOperand
  have hoperators := h.countP_isOperator
  omega

theorem Signed.polish {n : Nat} {e : Expr} {ts us : List Token} (h : Signed n ts us) (hw : Writes .sum e ts)
    (strict : Bool) : Token.polish strict (us ++ [.stop]) = .ok (Polish.ofTokens us []).output := by
  have hstop := h.stop_notMem (stop_notMem_of_writes hw)
  have hbalanced : (Polish.ofTokens us []).balanced = true := by
    rw [Polish.balanced_ofTokens hstop, Polish.depth, h.closes]
    exact (counts_of_writes hw).2
  simp [Token.polish, Polish.ofTokens_append_stop hstop, hbalanced]

namespace Compile

/-- An infix expression with a subtraction directly before a digit is never accepted.  Within the limits it is
malformed. -/
theorem expression_of_crowded {n : Nat} {e : Expr} {ts : List Token} {s : Text} (hw : Writes .sum e ts)
    (hs : Crowded n ts s) (hn : 0 < n) (c : Compilation) :
    (∃ err, (expression s c).1 = .error err) ∧
      ((∀ x ∈ e.names, ∃ v, c.symbols.find? x = some v) →
        (∀ x ∈ e.names, x.length ≤ c.options.limits.identifierLength) →
        ts.length ≤ c.options.limits.tokens + n → e.codeSize ≤ c.room + n →
        (expression s c).1 = .error .malformedExpression) := by
  obtain ⟨us, hus, hscan, hscanned⟩ := hs.scan (isChain_of_alternates (alternates_of_writes hw)).1
  refine ⟨?_, fun hdeclared hnames htokens hroom => ?_⟩
  · rcases ho : (expression s c).1 with err | o
    · exact ⟨err, rfl⟩
    · obtain ⟨polish, ha, hplan⟩ := plan_of_expression ho
      obtain ⟨tokens, hok, hpolish⟩ := Text.analyse_eq_ok ha
      rw [hscanned _ tokens hok, hus.polish hw] at hpolish
      cases hpolish
      exact absurd hplan (hus.plan_ne_ok hn hw c.symbols o)
  · have hstop := hus.stop_notMem (stop_notMem_of_writes hw)
    have hlen := hus.length_add
    have hname : ∀ x, .name x ∈ us → x ∈ e.names := fun x hx => mem_names_of_writes hw (hus.name_mem hx)
    have hread := hscan c.options.limits (fun x hx => hnames x (hname x hx)) (by omega)
    obtain ⟨-, ha⟩ := Text.analyse_of_scan hread (hus.polish hw c.options.strictParens)
    have hfit : (plan c.symbols 1 (Polish.ofTokens us []).output []).code.length ≤ c.room := by
      have hle := length_plan_le c.symbols 1 (Polish.ofTokens us []).output []
      have hsum := hus.sum_codeSize
      rw [sum_codeSize_ofTokens hstop] at hle
      rw [sum_codeSize_of_writes hw] at hsum
      omega
    have hnamed : ∀ x, .name x ∈ (Polish.ofTokens us []).output → ∃ v, c.symbols.find? x = some v := by
      intro x hx
      refine hdeclared x (hname x ?_)
      have hmem : .name x ∈ (Polish.ofTokens us []).output.filter Token.isOperand := List.mem_filter.2 ⟨hx, rfl⟩
      rw [Polish.filter_isOperand_ofTokens hstop] at hmem
      exact List.mem_of_mem_filter hmem
    rw [fst_expression ha, Plan.outcome, if_pos hfit]
    rcases hplan : (plan c.symbols 1 (Polish.ofTokens us []).output []).result with err | o
    · rw [eq_malformedExpression_of_plan (fun t => Polish.isOperand_or_isOperator_of_mem_ofTokens) hnamed hplan]
    · exact absurd hplan (hus.plan_ne_ok hn hw c.symbols o)

/-- The expression `(x - 7) * (-2)`: its first `-` is a subtraction, its second one a sign. -/
theorem expression_of_crowded_difference :
    let c := (Compilation.start {}).process "int x = 9".toList
    let e : Expr := .binary .mul (.binary .sub (.name ['x']) (.literal 7)) (.literal (-2))
    Crowded 1 [.lparen, .name ['x'], .operator .sub, .literal 7, .rparen, .operator .mul, .literal (-2)]
        " (x -07)* -2\t".toList ∧
      e.eval (fun _ => 9) = -4 ∧ (expression " (x -07)* -2\t".toList c).1 = .error .malformedExpression := by
  intro c e
  have hnil := Text.isGap_nil
  have hblank : Text.IsGap [' '] := by simp [Text.IsGap, Text.isSpace]
  have htab : Text.IsGap ['\t'] := by simp [Text.IsGap, Text.isSpace]
  have hx : Spells (.name ['x']) ['x'] := .name (by decide)
  have hseven : Spells (.literal 7) ['0', '7'] :=
    @Spells.literal 7 false ['0', '7'] (by decide) (by simp) (by decide +kernel)
  have htwo : Spells (.literal (-2)) ['-', '2'] :=
    @Spells.literal (-2) true ['2'] (by decide) (by simp) (by decide +kernel)
  have hs : Crowded 1 [.lparen, .name ['x'], .operator .sub, .literal 7, .rparen, .operator .mul, .literal (-2)]
      " (x -07)* -2\t".toList :=
    @Crowded.cons _ _ _ [' '] _ _ hblank .lparen (by simp) <|
    @Crowded.cons _ _ _ [] _ _ hnil hx (by simp) <|
    @Crowded.sign _ _ _ [' '] _ _ hblank hseven (by decide) <|
    @Crowded.cons _ _ _ [] _ _ hnil .rparen (by simp) <|
    @Crowded.cons _ _ _ [] _ _ hnil (.operator .mul) (by simp) <|
    @Crowded.cons _ _ _ [' '] _ _ hblank htwo (by simp) <|
    .nil htab
  have hw : Writes .sum e [.lparen, .name ['x'], .operator .sub, .literal 7, .rparen, .operator .mul, .literal (-2)] :=
    .sum (.product (.inl rfl) (.term (.paren (.addition (.inr rfl) (.sum (.term (.name _))) (.term (.literal 7)))))
      (.literal (-2)))
  have hdeclared : ∀ x ∈ e.names, ∃ v, c.symbols.find? x = some v := by
    intro x hx
    obtain rfl : x = ['x'] := by simpa [e, Expr.names] using hx
    exact ⟨{ name := ['x'], value := 9, offset := 8, declared := true }, by decide +kernel⟩
  refine ⟨hs, by decide +kernel, (expression_of_crowded hw hs (by decide) c).2 hdeclared ?_ ?_ ?_⟩
  · decide +kernel
  · decide +kernel
  · decide +kernel

end Compile

end ArithMips
