import ArithMips.Proofs.Grammar
import ArithMips.Proofs.Postorder
import ArithMips.Proofs.Process
import ArithMips.Proofs.Scan

/-!
# Infix expressions among the accepted token lists

The compiler never checks that operands and operators alternate: `1 2 +` is accepted and stands for `1 + 2`
(`Compile.expression_accepts_polish`).  What it does check, with strict parentheses, is that parentheses match and
that the reordered tokens are the postorder of a tree.  This leaves one way to be accepted without being an infix
expression, which is to put an operand or a `(` directly behind an operand or a `)`
(`Compile.writes_iff_of_expression`): the postorder of a tree has one operand more than operators, reordering keeps
both numbers, and without such neighbours this surplus forces the tokens to alternate.
-/

namespace ArithMips

open Token (Apart)

/-! ### Reordered tokens -/

theorem closes_of_polish {ts polish : List Token} (hstop : .stop ∉ ts)
    (h : Token.polish true (ts ++ [.stop]) = .ok polish) :
    Polish.closes 0 ts = true ∧ (Polish.ofTokens ts []).output = polish := by
  rw [Polish.polish_eq_ok_iff, Polish.ofTokens_append_stop hstop] at h
  obtain ⟨hbalanced, hout⟩ := h
  rw [Polish.balanced_ofTokens hstop, Polish.depth] at hbalanced
  exact ⟨hbalanced rfl, hout⟩

/-- A tree has one operand more than operators, and so has the token list that was reordered into it. -/
theorem countP_isOperand_of_polish {ts : List Token} {e : Expr} (hstop : .stop ∉ ts)
    (h : (Polish.ofTokens ts []).output = e.postorder) :
    ts.countP Token.isOperand = ts.countP Token.isOperator + 1 := by
  have hoperands : ts.countP Token.isOperand = e.postorder.countP Token.isOperand := by
    have hfilter := Polish.filter_isOperand_ofTokens hstop []
    rw [h] at hfilter
    rw [List.countP_eq_length_filter, List.countP_eq_length_filter, hfilter]
  have hoperators : ts.countP Token.isOperator = e.postorder.countP Token.isOperator := by
    have hperm := (Polish.filter_isOperator_ofTokens hstop []).length_eq
    rw [h, Polish.waiting, List.append_nil] at hperm
    rw [List.countP_eq_length_filter, List.countP_eq_length_filter, hperm]
  rw [hoperands, hoperators, Expr.countP_isOperand_postorder]

private theorem writes_iff_isChain {ts : List Token} {e : Expr} (hstop : .stop ∉ ts)
    (h : Token.polish true (ts ++ [.stop]) = .ok e.postorder) : Writes .sum e ts ↔ ts.IsChain Apart := by
  refine ⟨fun hw => (isChain_of_alternates (alternates_of_writes hw)).1, fun hchain => ?_⟩
  obtain ⟨hcloses, hout⟩ := closes_of_polish hstop h
  have hcount := countP_isOperand_of_polish hstop hout
  have halt := (alternates_of_countP hstop hchain true (by simp)).2 hcount
  obtain ⟨e', he'⟩ := exists_writes hcloses halt
  have heq : e = e' := by
    rw [Polish.polish_of_writes he'] at h
    exact Expr.postorder_injective (Except.ok.inj h).symm
  rw [heq]
  exact he'

/-! ### The check of the compiler -/

namespace Compile

theorem plan_of_expression {s : Text} {c : Compilation} {o : Operand} (h : (expression s c).1 = .ok o) :
    ∃ tokens, (s.analyse c.options).result = .ok tokens ∧ (plan c.symbols 1 tokens []).result = .ok o := by
  rcases ha : (s.analyse c.options).result with err | tokens
  · rw [expression_of_error ha] at h
    cases h
  · rw [fst_expression ha, Plan.outcome] at h
    split at h
    · exact ⟨tokens, rfl, h⟩
    · cases h

/-- With strict parentheses, an accepted expression is an infix expression unless an operand directly follows
another one in it, and its postorder is that of an infix expression in any case. -/
theorem writes_iff_of_expression (s : Text) (c : Compilation) (hstrict : c.options.strictParens = true) :
    (∀ o, (expression s c).1 = .ok o →
      ∃ ts e, (s.scan c.options.limits).result = .ok (ts ++ [.stop]) ∧ Polish.closes 0 ts = true ∧
        Token.polish true (ts ++ [.stop]) = .ok e.postorder ∧ (Writes .sum e ts ↔ ts.IsChain Apart)) ∧
    (∀ ts, (s.scan c.options.limits).result = .ok (ts ++ [.stop]) → ts.IsChain Apart →
      (¬∃ e, Writes .sum e ts) → ∃ err, (expression s c).1 = .error err) := by
  have hok : ∀ o, (expression s c).1 = .ok o →
      ∃ ts e, (s.scan c.options.limits).result = .ok (ts ++ [.stop]) ∧ Polish.closes 0 ts = true ∧
        Token.polish true (ts ++ [.stop]) = .ok e.postorder ∧ (Writes .sum e ts ↔ ts.IsChain Apart) := by
    intro o ho
    obtain ⟨polish, hpolish, hplan⟩ := plan_of_expression ho
    obtain ⟨tokens, hscan, hpolish⟩ := Text.analyse_eq_ok hpolish
    obtain ⟨ts, rfl, hstop⟩ := Scan.exists_append_stop hscan
    obtain ⟨e, rfl⟩ := eq_postorder_of_plan hplan
    rw [hstrict] at hpolish
    exact ⟨ts, e, hscan, (closes_of_polish hstop hpolish).1, hpolish, writes_iff_isChain hstop hpolish⟩
  refine ⟨hok, fun ts hscan hchain hnone => ?_⟩
  rcases he : (expression s c).1 with err | o
  · exact ⟨err, rfl⟩
  · obtain ⟨ts', e, hscan', -, -, hiff⟩ := hok o he
    obtain rfl : ts' = ts := by
      rw [hscan] at hscan'
      exact (List.append_cancel_right (Except.ok.inj hscan')).symm
    exact absurd ⟨e, hiff.2 hchain⟩ hnone

theorem writes_iff_of_expression_strict :
    let c := Compilation.start { strictParens := true }
    (∃ ts e, (Text.scan c.options.limits "(7 - 2) * -3".toList).result = .ok (ts ++ [.stop]) ∧
      Token.polish true (ts ++ [.stop]) = .ok e.postorder ∧ Writes .sum e ts) ∧
    ∃ err, (expression "4 * (+)".toList c).1 = .error err := by
  intro c
  refine ⟨?_, ?_⟩
  · have hok : (expression "(7 - 2) * -3".toList c).1 = .ok { register := ⟨5⟩, value := -15 } := by decide +kernel
    have hscan : (Text.scan c.options.limits "(7 - 2) * -3".toList).result =
        .ok ([.lparen, .literal 7, .operator .sub, .literal 2, .rparen, .operator .mul, .literal (-3)] ++
          [.stop]) := by
      decide +kernel
    obtain ⟨ts, e, hts, -, hpolish, hiff⟩ := (writes_iff_of_expression _ c rfl).1 _ hok
    refine ⟨ts, e, hts, hpolish, hiff.2 ?_⟩
    rw [hscan] at hts
    rw [← List.append_cancel_right (Except.ok.inj hts)]
    decide
  · have hscan : (Text.scan c.options.limits "4 * (+)".toList).result =
        .ok ([.literal 4, .operator .mul, .lparen, .operator .add, .rparen] ++ [.stop]) := by
      decide +kernel
    refine (writes_iff_of_expression _ c rfl).2 _ hscan (by decide) ?_
    rintro ⟨e, he⟩
    exact absurd (alternates_of_writes he) (by decide)

/-- Not every accepted expression is an infix expression. -/
theorem expression_accepts_polish :
    let c := Compilation.start { strictParens := true }
    ∃ ts, (Text.scan c.options.limits "1 2 +".toList).result = .ok (ts ++ [.stop]) ∧
      (Text.scan c.options.limits "1 2 +".toList).skipped = [] ∧
      (expression "1 2 +".toList c).1 = .ok { register := ⟨3⟩, value := 3 } ∧ ¬∃ e, Writes .sum e ts := by
  refine ⟨[.literal 1, .literal 2, .operator .add], by decide +kernel, by decide +kernel, by decide +kernel, ?_⟩
  rintro ⟨e, he⟩
  exact absurd (alternates_of_writes he) (by decide)

end Compile

end ArithMips
