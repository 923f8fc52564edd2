import ArithMips.Expr
import ArithMips.Proofs.Lowering
import Mathlib.Algebra.GroupWithZero.Nat

/-!
# Trees in reverse Polish order

Reading tokens over a stack of trees (`Expr.rebuild`) undoes `Expr.postorder`: it finds the tree that a list of
tokens comes from, and there is at most one (`postorder_injective`).  Lowering follows the same course over its
stack of operands.  So it succeeds on postorders only (`eq_postorder_of_plan`), and on the postorder of a tree
whose variables are declared it computes the value of the tree (`plan_postorder_append`).
-/

namespace ArithMips

open Mips (Instruction Register)

namespace Expr

/-- The tree that tokens in reverse Polish order build over a stack of trees. -/
def rebuild : List Token → List Expr → Option Expr
  | [], [e] => some e
  | .literal value :: ts, stack => rebuild ts (.literal value :: stack)
  | .name identifier :: ts, stack => rebuild ts (.name identifier :: stack)
  | .operator op :: ts, r :: l :: stack => rebuild ts (.binary op l r :: stack)
  | _, _ => none

private theorem rebuild_postorder_append (e : Expr) (ts : List Token) (stack : List Expr) :
    rebuild (e.postorder ++ ts) stack = rebuild ts (e :: stack) := by
  induction e generalizing ts stack with
  | literal | name => rfl
  | binary op l r ihl ihr =>
    rw [postorder, List.append_assoc, List.append_assoc, ihl, ihr]
    rfl

private theorem rebuild_postorder (e : Expr) : rebuild e.postorder [] = some e := by
  have h := rebuild_postorder_append e [] []
  rw [List.append_nil] at h
  exact h

/-- A tree is determined by its tokens in reverse Polish order. -/
theorem postorder_injective {e e' : Expr} (h : e.postorder = e'.postorder) : e = e' := by
  have h' := rebuild_postorder e
  rw [h, rebuild_postorder] at h'
  exact (Option.some.inj h').symm

/-- What was read so far stays in front. -/
private theorem postorder_of_rebuild {ts : List Token} {stack : List Expr} {e : Expr} (h : rebuild ts stack = some e) :
    stack.reverse.flatMap postorder ++ ts = e.postorder := by
  fun_induction rebuild ts stack with
  | case1 e' =>
    cases h
    simp
  | case2 value ts stack ih =>
    rw [← ih h]
    simp [postorder]
  | case3 identifier ts stack ih =>
    rw [← ih h]
    simp [postorder]
  | case4 op ts r l stack ih =>
    rw [← ih h]
    simp [postorder]
  | case5 => cases h

theorem countP_isOperand_postorder (e : Expr) :
    e.postorder.countP Token.isOperand = e.postorder.countP Token.isOperator + 1 := by
  induction e with
  | literal | name => rfl
  | binary op l r ihl ihr =>
    simp only [postorder, List.countP_append, List.countP_singleton, Token.isOperand, Token.isOperator]
    simp
    omega

end Expr

/-! ### Lowering a postorder -/

/-- Lowering succeeds only where a tree can be read. -/
private theorem exists_rebuild_of_plan {symbols : SymbolTable} {r : UInt32} {tokens : List Token} {stack : List Operand}
    {o : Operand} (h : (plan symbols r tokens stack).result = .ok o) {trees : List Expr}
    (hlen : trees.length = stack.length) : ∃ e, Expr.rebuild tokens trees = some e := by
  induction tokens generalizing r stack trees with
  | nil =>
    rcases stack with _ | ⟨o', _ | ⟨o'', stack⟩⟩
    · cases h
    · obtain ⟨e, rfl⟩ := List.length_eq_one_iff.1 hlen
      exact ⟨e, rfl⟩
    · cases h
  | cons t rest ih =>
    rcases hl : lowerToken symbols ⟨r⟩ t stack with err | l
    · rw [plan_cons_of_error hl] at h
      cases h
    · rw [plan_cons_of_ok hl, Plan.result_after] at h
      rcases lowerToken_cases hl with ⟨value, rfl, rfl⟩ | ⟨name, v, rfl, -, rfl⟩ | ⟨op, _, _, stack', rfl, rfl, rfl⟩
      · exact ih h (by simpa using hlen)
      · exact ih h (by simpa using hlen)
      · obtain ⟨right, left, trees', rfl⟩ : ∃ right left trees', trees = right :: left :: trees' := by
          rcases trees with _ | ⟨right, _ | ⟨left, trees'⟩⟩
          · simp at hlen
          · simp at hlen
          · exact ⟨right, left, trees', rfl⟩
        exact ih h (by simpa using hlen)

theorem eq_postorder_of_plan {symbols : SymbolTable} {r : UInt32} {tokens : List Token} {o : Operand}
    (h : (plan symbols r tokens []).result = .ok o) : ∃ e : Expr, tokens = e.postorder := by
  have hlen : ([] : List Expr).length = ([] : List Operand).length := rfl
  obtain ⟨e, he⟩ := exists_rebuild_of_plan h hlen
  exact ⟨e, by simpa using Expr.postorder_of_rebuild he⟩

/-- The number of instructions that apply an operator. -/
def Operator.codeSize : Operator → Nat
  | add | sub => 1
  | mul | div => 2

/-- The number of instructions that compute an expression. -/
def Expr.codeSize : Expr → Nat
  | literal _ | name _ => 1
  | binary op left right => left.codeSize + right.codeSize + op.codeSize

theorem Operator.length_code (op : Operator) (rd rs rt : Register) : (op.code rd rs rt).length = op.codeSize := by
  cases op <;> rfl

/-- The number of instructions that lower a token. -/
def Token.codeSize : Token → Nat
  | literal _ | name _ => 1
  | operator op => op.codeSize
  | lparen | rparen | stop => 0

theorem length_plan_le (symbols : SymbolTable) (r : UInt32) (tokens : List Token) (stack : List Operand) :
    (plan symbols r tokens stack).code.length ≤ (tokens.map Token.codeSize).sum := by
  induction tokens generalizing r stack with
  | nil => rcases stack with _ | ⟨o, _ | ⟨o', stack⟩⟩ <;> exact Nat.le_refl 0
  | cons t rest ih =>
    rcases hl : lowerToken symbols ⟨r⟩ t stack with err | l
    · rw [plan_cons_of_error hl]
      exact Nat.zero_le _
    · have hrest := ih (r + 1) (l.operand :: l.rest)
      rw [plan_cons_of_ok hl, Plan.code_after, List.length_append, List.map_cons, List.sum_cons]
      rcases lowerToken_cases hl with ⟨value, rfl, rfl⟩ | ⟨name, v, rfl, -, rfl⟩ | ⟨op, _, _, _, rfl, rfl, rfl⟩
      · exact Nat.add_le_add_left hrest 1
      · exact Nat.add_le_add_left hrest 1
      · rw [Operator.length_code]
        exact Nat.add_le_add_left hrest op.codeSize

theorem lowerToken_eq_error {symbols : SymbolTable} {rd : Register} {t : Token} {stack : List Operand} {err : Error}
    (h : lowerToken symbols rd t stack = .error err) :
    (∃ x, t = .name x ∧ symbols.find? x = none ∧ err = .undeclared x) ∨
      (∃ op, t = .operator op ∧ stack.length < 2 ∧ err = .malformedExpression) ∨
      (t.isOperand = false ∧ t.isOperator = false ∧ err = .strayToken t) := by
  cases t with
  | literal value => cases h
  | name x =>
    rw [lowerToken] at h
    split at h
    · cases h
    · next hx => exact .inl ⟨x, rfl, hx, (Except.error.inj h).symm⟩
  | operator op =>
    rcases stack with _ | ⟨o, _ | ⟨o', stack⟩⟩
    · exact .inr (.inl ⟨op, rfl, by simp, (Except.error.inj h).symm⟩)
    · exact .inr (.inl ⟨op, rfl, by simp, (Except.error.inj h).symm⟩)
    · cases h
  | lparen | rparen | stop => exact .inr (.inr ⟨rfl, rfl, (Except.error.inj h).symm⟩)

/-- The ways in which lowering an expression fails. -/
theorem plan_eq_error {symbols : SymbolTable} {r : UInt32} {tokens : List Token} {stack : List Operand} {err : Error}
    (h : (plan symbols r tokens stack).result = .error err) :
    (∃ x, .name x ∈ tokens ∧ symbols.find? x = none ∧ err = .undeclared x) ∨ err = .malformedExpression ∨
      ∃ t ∈ tokens, t.isOperand = false ∧ t.isOperator = false ∧ err = .strayToken t := by
  induction tokens generalizing r stack with
  | nil => rcases stack with _ | ⟨o, _ | ⟨o', stack⟩⟩ <;> cases h <;> exact .inr (.inl rfl)
  | cons t rest ih =>
    rcases hl : lowerToken symbols ⟨r⟩ t stack with err' | l
    · rw [plan_cons_of_error hl] at h
      cases h
      rcases lowerToken_eq_error hl with ⟨x, rfl, hx, herr⟩ | ⟨op, -, -, herr⟩ | ⟨hoperand, hoperator, herr⟩
      · exact .inl ⟨x, List.mem_cons_self, hx, herr⟩
      · exact .inr (.inl herr)
      · exact .inr (.inr ⟨t, List.mem_cons_self, hoperand, hoperator, herr⟩)
    · rw [plan_cons_of_ok hl, Plan.result_after] at h
      rcases ih h with ⟨x, hx, hnone, herr⟩ | herr | ⟨u, hu, hoperand, hoperator, herr⟩
      · exact .inl ⟨x, List.mem_cons_of_mem _ hx, hnone, herr⟩
      · exact .inr (.inl herr)
      · exact .inr (.inr ⟨u, List.mem_cons_of_mem _ hu, hoperand, hoperator, herr⟩)

/-- Among operands that are declared and operators, lowering fails only for want of a tree. -/
theorem eq_malformedExpression_of_plan {symbols : SymbolTable} {r : UInt32} {tokens : List Token}
    {stack : List Operand} (htokens : ∀ t ∈ tokens, t.isOperand = true ∨ t.isOperator = true)
    (hdeclared : ∀ x, .name x ∈ tokens → ∃ v, symbols.find? x = some v) {err : Error}
    (h : (plan symbols r tokens stack).result = .error err) : err = .malformedExpression := by
  rcases plan_eq_error h with ⟨x, hx, hnone, -⟩ | herr | ⟨t, ht, hoperand, hoperator, -⟩
  · obtain ⟨v, hv⟩ := hdeclared x hx
    rw [hnone] at hv
    cases hv
  · exact herr
  · have htoken := htokens t ht
    simp [hoperand, hoperator] at htoken

private theorem plan_operator (symbols : SymbolTable) (r : UInt32) (op : Operator) (rest : List Token)
    (right left : Operand) (stack : List Operand) :
    plan symbols r (.operator op :: rest) (right :: left :: stack) =
      (plan symbols (r + 1) rest (⟨⟨r⟩, op.apply left.value right.value⟩ :: stack)).after
        (op.code ⟨r⟩ left.register right.register) := by
  rw [plan_cons_of_ok rfl]

/-- Lowering the postorder of a tree pushes one operand with the value of the tree, in the register of its last
token. -/
theorem plan_postorder_append {symbols : SymbolTable} {values : Text → Int64} {e : Expr}
    (hdeclared : ∀ x ∈ e.names, ∃ v, symbols.find? x = some v ∧ v.value = values x) (r : UInt32)
    (rest : List Token) (stack : List Operand) :
    ∃ code, code.length = e.codeSize ∧
      plan symbols r (e.postorder ++ rest) stack =
        (plan symbols (r + UInt32.ofNat e.postorder.length) rest
          (⟨⟨r + UInt32.ofNat (e.postorder.length - 1)⟩, e.eval values⟩ :: stack)).after code := by
  induction e generalizing r rest stack with
  | literal value =>
    refine ⟨[.li ⟨r⟩ value], rfl, ?_⟩
    have hzero : r + UInt32.ofNat 0 = r := UInt32.add_zero r
    rw [Expr.postorder, List.singleton_append, plan_cons_of_ok rfl, List.length_singleton, hzero]
    rfl
  | name x =>
    obtain ⟨v, hv, hvalue⟩ := hdeclared x (by simp [Expr.names])
    have hlower : lowerToken symbols ⟨r⟩ (.name x) stack =
        .ok { operand := ⟨⟨r⟩, v.value⟩, code := [.ld ⟨r⟩ x v.offset], rest := stack } := by
      rw [lowerToken, hv]
    refine ⟨[.ld ⟨r⟩ x v.offset], rfl, ?_⟩
    have hzero : r + UInt32.ofNat 0 = r := UInt32.add_zero r
    rw [Expr.postorder, List.singleton_append, plan_cons_of_ok hlower, List.length_singleton, hzero, hvalue]
    rfl
  | binary op left right ihl ihr =>
    have hleft := fun x hx => hdeclared x (List.mem_append_left right.names hx)
    have hright := fun x hx => hdeclared x (List.mem_append_right left.names hx)
    have hlen : (Expr.binary op left right).postorder.length =
        left.postorder.length + right.postorder.length + 1 := by
      simp [Expr.postorder, Nat.add_assoc]
    have hregister : r + UInt32.ofNat (left.postorder.length + right.postorder.length) =
        r + UInt32.ofNat left.postorder.length + UInt32.ofNat right.postorder.length := by
      rw [UInt32.ofNat_add, UInt32.add_assoc]
    obtain ⟨codel, hlenl, hplanl⟩ := ihl hleft r (right.postorder ++ .operator op :: rest) stack
    obtain ⟨coder, hlenr, hplanr⟩ := ihr hright (r + UInt32.ofNat left.postorder.length) (.operator op :: rest)
      (⟨⟨r + UInt32.ofNat (left.postorder.length - 1)⟩, left.eval values⟩ :: stack)
    rw [plan_operator, Operator.apply_eq] at hplanr
    have hsplit : (Expr.binary op left right).postorder ++ rest =
        left.postorder ++ (right.postorder ++ .operator op :: rest) := by
      simp [Expr.postorder]
    rw [hsplit, hplanl, hplanr, hlen, Nat.add_sub_cancel, UInt32.ofNat_add _ 1, ← UInt32.add_assoc, hregister,
      Plan.after_after, Plan.after_after]
    refine ⟨_, ?_, rfl⟩
    simp only [List.length_append, Operator.length_code, Expr.codeSize, hlenl, hlenr]

end ArithMips
