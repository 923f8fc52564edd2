import ArithMips.Proofs.Faults

/-!
# Folded values as integers

The value that lowering records beside its code is the value of the tokens over the integers, with every sum, difference
and product brought back to 64 bits (`Operator.stepwise`).  A quotient is truncated toward zero and needs this for one
pair of numbers only (`Operator.toInt_apply`).

Reduction modulo `2 ^ 64` commutes with sums, differences and products (`Operator.stepwise_bmod`), so in an expression
without quotients it may be left to the end: whatever overflows on the way, the value is the exact one, reduced once
(`Compile.lower_exact`).
-/

namespace ArithMips

/-- The operators on integers of 64 bits with sign.  Sums, differences and products are reduced; a quotient is truncated
toward zero, is zero if the divisor is, and is reduced only where it is too large. -/
def Operator.stepwise : Operator → Int → Int → Int
  | add, x, y => (x + y).bmod (2 ^ 64)
  | sub, x, y => (x - y).bmod (2 ^ 64)
  | mul, x, y => (x * y).bmod (2 ^ 64)
  | div, x, y =>
    if y = 0 then 0
    else if x = Int64.minValue.toInt ∧ y = -1 then Int64.minValue.toInt
    else x.tdiv y

/-- The value of tokens in reverse Polish order over a stack of integers, if they have one. -/
def Token.value? (apply : Operator → Int → Int → Int) (values : Text → Option Int) :
    List Token → List Int → Option Int
  | [], [z] => some z
  | .literal value :: rest, stack => value? apply values rest (value.toInt :: stack)
  | .name x :: rest, stack => (values x).bind fun z => value? apply values rest (z :: stack)
  | .operator op :: rest, y :: x :: stack => value? apply values rest (apply op x y :: stack)
  | _, _ => none

/-- The recorded value of a variable as an integer, if it is declared. -/
def SymbolTable.recorded (t : SymbolTable) (x : Text) : Option Int := (t.find? x).map (·.value.toInt)

/-! ### One operator -/

private theorem toInt_div_eq (x y : Int64) : (x / y).toInt = Operator.div.stepwise x.toInt y.toInt := by
  rw [Operator.stepwise]
  split
  · next hzero => rw [Int64.toInt_div, hzero, Int.tdiv_zero, Int.zero_bmod]
  · split
    · next hmin =>
      rw [Int64.toInt_div, hmin.1, hmin.2]
      rfl
    · next hother =>
      by_cases hx : x = Int64.minValue
      · -- The divisor is not -1.
        have hy : y ≠ -1 := fun hy => hother ⟨by rw [hx], by rw [hy]; rfl⟩
        exact Int64.toInt_div_of_ne_right x y hy
      · exact Int64.toInt_div_of_ne_left x y hx

theorem Operator.toInt_apply (op : Operator) (x y : Int64) : (op.apply x y).toInt = op.stepwise x.toInt y.toInt := by
  cases op with
  | div => exact toInt_div_eq x y
  | add | sub | mul =>
    rw [apply_eq, Int64.toInt_ofInt]
    rfl

/-- Operands may be reduced before they are added, subtracted or multiplied. -/
theorem Operator.stepwise_bmod {op : Operator} (h : op ≠ .div) (x y : Int) :
    op.stepwise (x.bmod (2 ^ 64)) (y.bmod (2 ^ 64)) = (op.exact x y).bmod (2 ^ 64) := by
  cases op with
  | add => rw [stepwise, exact, Int.bmod_add_bmod, Int.add_bmod_bmod]
  | sub => rw [stepwise, exact, Int.bmod_sub_bmod, Int.sub_bmod_bmod]
  | mul => rw [stepwise, exact, Int.bmod_mul_bmod, Int.mul_bmod_bmod]
  | div => exact absurd rfl h

/-! ### Whole expressions -/

/-- What commutes with the operators of an expression, and leaves its literals and variables alone, commutes with its
evaluation. -/
private theorem Token.value?_map {apply apply' : Operator → Int → Int → Int} {values : Text → Option Int}
    {φ : Int → Int}
    (hvalues : ∀ x, (values x).map φ = values x) (hliteral : ∀ value : Int64, φ value.toInt = value.toInt)
    {tokens : List Token}
    (hoperator : ∀ op, .operator op ∈ tokens → ∀ x y, apply' op (φ x) (φ y) = φ (apply op x y)) (stack : List Int) :
    value? apply' values tokens (stack.map φ) = (value? apply values tokens stack).map φ := by
  induction tokens generalizing stack with
  | nil => rcases stack with _ | ⟨z, _ | ⟨z', stack⟩⟩ <;> rfl
  | cons t rest ih =>
    have hrest := ih fun op hop => hoperator op (List.mem_cons_of_mem _ hop)
    cases t with
    | literal value =>
      rw [value?, value?, ← hrest, List.map_cons, hliteral]
    | name x =>
      rw [value?, value?]
      rcases hx : values x with _ | z
      · rfl
      · have hz : φ z = z := by simpa [hx] using hvalues x
        rw [Option.bind_some, Option.bind_some, ← hrest, List.map_cons, hz]
    | operator op =>
      rcases stack with _ | ⟨y, _ | ⟨x, stack⟩⟩
      · rfl
      · rfl
      · rw [List.map_cons, List.map_cons, value?, value?, ← hrest, List.map_cons,
          hoperator op List.mem_cons_self]
    | lparen | rparen | stop => rfl

/-- The plan of an expression ends with its value, step by step, and fails where there is none. -/
private theorem value?_stepwise (symbols : SymbolTable) (r : UInt32) (tokens : List Token) (stack : List Operand) :
    Token.value? Operator.stepwise symbols.recorded tokens (stack.map (·.value.toInt)) =
      (plan symbols r tokens stack).result.toOption.map (·.value.toInt) := by
  induction tokens generalizing r stack with
  | nil => rcases stack with _ | ⟨o, _ | ⟨o', stack⟩⟩ <;> rfl
  | cons t rest ih =>
    cases t with
    | literal value =>
      rw [plan_cons_of_ok rfl, Plan.result_after, ← ih]
      rfl
    | name x =>
      rw [Token.value?, SymbolTable.recorded]
      rcases hx : symbols.find? x with _ | v
      · have hl : lowerToken symbols ⟨r⟩ (.name x) stack = .error (.undeclared x) := by rw [lowerToken, hx]
        rw [plan_cons_of_error hl]
        rfl
      · have hl : lowerToken symbols ⟨r⟩ (.name x) stack =
            .ok { operand := ⟨⟨r⟩, v.value⟩, code := [.ld ⟨r⟩ x v.offset], rest := stack } := by rw [lowerToken, hx]
        rw [plan_cons_of_ok hl, Plan.result_after, ← ih]
        rfl
    | operator op =>
      rcases stack with _ | ⟨right, _ | ⟨left, stack⟩⟩
      · rw [plan_cons_of_error rfl]
        rfl
      · rw [plan_cons_of_error rfl]
        rfl
      · rw [plan_cons_of_ok rfl, Plan.result_after, ← ih, List.map_cons, List.map_cons, List.map_cons, Token.value?,
          Operator.toInt_apply]
    | lparen | rparen | stop =>
      rw [plan_cons_of_error rfl]
      rfl

/-- Without quotients the value step by step is the exact one, reduced once. -/
private theorem value?_stepwise_eq_exact (symbols : SymbolTable) {tokens : List Token}
    (h : ∀ t ∈ tokens, t ≠ .operator .div) :
    Token.value? Operator.stepwise symbols.recorded tokens [] =
      (Token.value? Operator.exact symbols.recorded tokens []).map (·.bmod (2 ^ 64)) := by
  have hvalues : ∀ x, (symbols.recorded x).map (·.bmod (2 ^ 64)) = symbols.recorded x := by
    intro x
    rw [SymbolTable.recorded, Option.map_map]
    congr 1
    funext v
    exact Int64.toInt_bmod v.value
  exact Token.value?_map hvalues Int64.toInt_bmod
    (fun op hop => Operator.stepwise_bmod fun hdiv => h _ hop (by rw [hdiv])) []

namespace Compile

/-- The value with which lowering ends is that of the tokens step by step.  Without quotients it is the exact value
reduced to 64 bits, and so the exact value itself if that fits. -/
theorem lower_exact {tokens : List Token} {c : Compilation} {o : Operand} (h : (lower tokens c).1 = .ok o) :
    Token.value? Operator.stepwise c.symbols.recorded tokens [] = some o.value.toInt ∧
      ((∀ t ∈ tokens, t ≠ .operator .div) →
        ∃ z, Token.value? Operator.exact c.symbols.recorded tokens [] = some z ∧ o.value.toInt = z.bmod (2 ^ 64) ∧
          (Int64.minValue.toInt ≤ z → z ≤ Int64.maxValue.toInt → o.value.toInt = z)) := by
  have hplan : (plan c.symbols c.emitter.nextRegister tokens []).result = .ok o := by
    rw [lower_apply, (lowerOn_spec _ _ _ _ _).1, Plan.outcome] at h
    split at h
    · exact h
    · cases h
  have hstep : Token.value? Operator.stepwise c.symbols.recorded tokens [] = some o.value.toInt := by
    have hvalue := value?_stepwise c.symbols c.emitter.nextRegister tokens []
    rw [hplan] at hvalue
    exact hvalue
  refine ⟨hstep, fun hdiv => ?_⟩
  rw [value?_stepwise_eq_exact c.symbols hdiv] at hstep
  obtain ⟨z, hz, hvalue⟩ := Option.map_eq_some_iff.1 hstep
  refine ⟨z, hz, hvalue.symm, fun hlow hhigh => ?_⟩
  rw [← hvalue]
  exact Int.bmod_eq_of_le hlow (Int.lt_add_one_of_le hhigh)

/-- A product that overflows before its difference with another one fits again, and the one quotient that does not
fit. -/
theorem lower_exact_overflow :
    let c := (Compilation.start {}).process "int a = 4611686018427387904".toList
    let difference : List Token := [.name ['a'], .literal 4, .operator .mul, .name ['a'], .literal 3, .operator .mul,
      .operator .sub]
    let quotient : List Token := [.literal Int64.minValue, .literal (-1), .operator .div]
    (∃ o, (lower difference c).1 = .ok o ∧
        Token.value? Operator.exact c.symbols.recorded difference [] = some 4611686018427387904 ∧
        o.value.toInt = 4611686018427387904) ∧
      ∃ o, (lower quotient c).1 = .ok o ∧
        Token.value? Operator.stepwise c.symbols.recorded quotient [] = some o.value.toInt ∧
        o.value = Int64.minValue := by
  intro c difference quotient
  have hdifference : (lower difference c).1 = .ok ⟨⟨8⟩, 4611686018427387904⟩ := by decide +kernel
  have hquotient : (lower quotient c).1 = .ok ⟨⟨4⟩, Int64.minValue⟩ := by decide +kernel
  obtain ⟨-, hexact⟩ := lower_exact hdifference
  obtain ⟨z, hz, -, hfits⟩ := hexact (by decide)
  have hvalue : Token.value? Operator.exact c.symbols.recorded difference [] = some 4611686018427387904 := by
    decide +kernel
  obtain rfl : z = 4611686018427387904 := Option.some.inj (hz.symm.trans hvalue)
  exact ⟨⟨_, hdifference, hz, hfits (by decide) (by decide)⟩, ⟨_, hquotient, (lower_exact hquotient).1, rfl⟩⟩

end Compile

end ArithMips
