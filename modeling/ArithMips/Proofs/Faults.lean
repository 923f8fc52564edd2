import ArithMips.Proofs.Meaning

/-!
# Where lowering fails

Which tokens in the place of an expression in reverse Polish order are lowered, and with which error the others fail.
An operand adds one entry to the stack and an operator takes one away, so the number of entries behind some tokens is
a difference of counts (`Token.height`).  A token fails by itself if it is a variable that is not declared or an
operator that finds less than two entries (`Token.Fails`); tokens of which none fails are `Token.Sound`.

* Lowering passes over sound tokens, and what they leave on the stack has their height (`plan_append_of_sound`).
* It ends at the first token that fails, or at the end of the tokens if their height is not one (`Token.Faulty`,
  `plan_eq_error_iff`).
* Otherwise the tokens are the postorder of a tree whose variables are declared (`plan_eq_ok_iff`).

`Compile.lower_iff_postorder` puts this together with the value, the number of instructions and what is left alone.
-/

namespace ArithMips

open Mips (Instruction Register)

namespace Token

/-- The number of entries that tokens leave on the stack. -/
def height (ts : List Token) : Int := ts.countP isOperand - ts.countP isOperator

/-- The number of instructions for tokens: a product or a quotient takes two, every other operator and every operand
one. -/
def instructionCount (ts : List Token) : Nat :=
  ts.countP isOperand + ts.countP (· ∈ [operator .add, operator .sub]) +
    2 * ts.countP (· ∈ [operator .mul, operator .div])

/-- How a token fails behind other tokens. -/
inductive Fails (symbols : SymbolTable) (before : List Token) : Token → Error → Prop where
  | undeclared {x : Text} : symbols.find? x = none → Fails symbols before (.name x) (.undeclared x)
  | operator {op : Operator} : height before < 2 → Fails symbols before (.operator op) .malformedExpression

/-- Whether no token fails behind those before it. -/
def Sound (symbols : SymbolTable) (ts : List Token) : Prop :=
  ∀ before t after, ts = before ++ t :: after → ∀ err, ¬Fails symbols before t err

/-- How tokens fail: at the first token that fails, or at their end. -/
inductive Faulty (symbols : SymbolTable) : List Token → Error → Prop where
  | token {before after : List Token} {t : Token} {err : Error} : Sound symbols before →
      Fails symbols before t err → Faulty symbols (before ++ t :: after) err
  | ending {ts : List Token} : Sound symbols ts → height ts ≠ 1 → Faulty symbols ts .malformedExpression

/-! ### Counting -/

private theorem height_append (ts us : List Token) : height (ts ++ us) = height ts + height us := by
  simp only [height, List.countP_append]
  omega

private theorem instructionCount_eq (ts : List Token) : instructionCount ts = (ts.map codeSize).sum := by
  induction ts with
  | nil => rfl
  | cons t ts ih =>
    rw [List.map_cons, List.sum_cons, ← ih]
    simp only [instructionCount, List.countP_cons]
    cases t with
    | operator op => cases op <;> simp [isOperand, codeSize, Operator.codeSize] <;> omega
    | literal | name | lparen | rparen | stop => simp [isOperand, codeSize] <;> omega

private theorem instructionCount_append (ts us : List Token) :
    instructionCount (ts ++ us) = instructionCount ts + instructionCount us := by
  simp only [instructionCount_eq, List.map_append, List.sum_append]

private theorem instructionCount_le_of_prefix {ts us : List Token} (h : ts <+: us) :
    instructionCount ts ≤ instructionCount us := by
  obtain ⟨vs, rfl⟩ := h
  rw [instructionCount_append]
  exact Nat.le_add_right _ _

/-! ### Sound tokens -/

private theorem sound_nil (symbols : SymbolTable) : Sound symbols [] := by
  intro before t after h
  simp at h

private theorem sound_append_singleton {symbols : SymbolTable} {ts : List Token} {t : Token} :
    Sound symbols (ts ++ [t]) ↔ Sound symbols ts ∧ ∀ err, ¬Fails symbols ts t err := by
  constructor
  · intro h
    refine ⟨fun before u after heq => ?_, h ts t [] rfl⟩
    exact h before u (after ++ [t]) (by simp [heq])
  · rintro ⟨hts, ht⟩ before u after heq
    rcases List.eq_nil_or_concat' after with rfl | ⟨after', v, rfl⟩
    · obtain ⟨rfl, hsame⟩ := List.append_inj' heq rfl
      rw [← List.cons.inj hsame |>.1]
      exact ht
    · rw [← List.cons_append, ← List.append_assoc] at heq
      exact hts before u after' (List.append_inj' heq rfl).1

/-- Tokens are sound, or there is a first one that fails. -/
private theorem sound_or_exists_fails (symbols : SymbolTable) (ts : List Token) :
    Sound symbols ts ∨ ∃ before t after err, ts = before ++ t :: after ∧ Sound symbols before ∧
      Fails symbols before t err := by
  induction ts using List.reverseRecOn with
  | nil => exact .inl (sound_nil symbols)
  | append_singleton ts t ih =>
    rcases ih with hts | ⟨before, u, after, err, rfl, hbefore, hu⟩
    · by_cases ht : ∃ err, Fails symbols ts t err
      · obtain ⟨err, ht⟩ := ht
        exact .inr ⟨ts, t, [], err, rfl, hts, ht⟩
      · exact .inl (sound_append_singleton.2 ⟨hts, fun err herr => ht ⟨err, herr⟩⟩)
    · exact .inr ⟨before, u, after ++ [t], err, by simp, hbefore, hu⟩

private theorem exists_find?_of_sound {symbols : SymbolTable} {ts : List Token} (h : Sound symbols ts) {x : Text}
    (hx : .name x ∈ ts) : ∃ v, symbols.find? x = some v := by
  obtain ⟨before, after, rfl⟩ := List.append_of_mem hx
  rcases hv : symbols.find? x with _ | v
  · exact absurd (.undeclared hv) (h before (.name x) after rfl _)
  · exact ⟨v, rfl⟩

end Token

open Token (height instructionCount Fails Sound Faulty)

/-! ### One token -/

/-- On a stack of the right height, lowering an operand or an operator fails as the token does. -/
private theorem lowerToken_eq_error_iff {symbols : SymbolTable} {rd : Register} {t : Token} {stack : List Operand}
    {err : Error} {before : List Token} (hstack : height before = stack.length)
    (ht : t.isOperand = true ∨ t.isOperator = true) :
    lowerToken symbols rd t stack = .error err ↔ Fails symbols before t err := by
  constructor
  · intro h
    rcases lowerToken_eq_error h with ⟨x, rfl, hx, rfl⟩ | ⟨op, rfl, hlen, rfl⟩ | ⟨hoperand, hoperator, -⟩
    · exact .undeclared hx
    · exact .operator (by omega)
    · simp [hoperand, hoperator] at ht
  · intro h
    cases h with
    | undeclared hx => rw [lowerToken, hx]
    | operator hlow =>
      rcases stack with _ | ⟨o, _ | ⟨o', stack⟩⟩
      · rfl
      · rfl
      · simp only [List.length_cons] at hstack
        omega

/-- A token that is lowered leaves as many entries as its height says, and writes as much code as it counts for. -/
private theorem height_of_lowerToken {symbols : SymbolTable} {rd : Register} {t : Token} {stack : List Operand}
    {l : Lowered} (h : lowerToken symbols rd t stack = .ok l) :
    ((l.operand :: l.rest).length : Int) = stack.length + height [t] ∧ l.code.length = instructionCount [t] := by
  rcases lowerToken_cases h with ⟨value, rfl, rfl⟩ | ⟨name, v, rfl, -, rfl⟩ | ⟨op, right, left, rest, rfl, rfl, rfl⟩
  · exact ⟨by simp [height, Token.isOperand, Token.isOperator], rfl⟩
  · exact ⟨by simp [height, Token.isOperand, Token.isOperator], rfl⟩
  · have hheight : height [.operator op] = -1 := rfl
    refine ⟨?_, by rw [Token.instructionCount_eq]; exact op.length_code _ _ _⟩
    simp only [hheight, List.length_cons]
    omega

/-! ### A whole expression -/

/-- Lowering passes over sound tokens. -/
theorem plan_append_of_sound {symbols : SymbolTable} {ts : List Token}
    (hts : ∀ t ∈ ts, t.isOperand = true ∨ t.isOperator = true) (h : Sound symbols ts) (r : UInt32) :
    ∃ code r' stack, code.length = instructionCount ts ∧ height ts = stack.length ∧
      ∀ rest, plan symbols r (ts ++ rest) [] = (plan symbols r' rest stack).after code := by
  -- The tokens are taken from their end, since a token fails or not depending on all those before it.
  induction ts using List.reverseRecOn with
  | nil => exact ⟨[], r, [], rfl, rfl, fun rest => rfl⟩
  | append_singleton ts t ih =>
    obtain ⟨hsound, ht⟩ := Token.sound_append_singleton.1 h
    obtain ⟨code, r', stack, hcode, hstack, hplan⟩ :=
      ih (fun u hu => hts u (List.mem_append_left _ hu)) hsound
    have htoken := hts t (List.mem_append_right _ List.mem_cons_self)
    rcases hl : lowerToken symbols ⟨r'⟩ t stack with err | l
    · exact absurd ((lowerToken_eq_error_iff hstack htoken).1 hl) (ht err)
    · obtain ⟨hheight, hlen⟩ := height_of_lowerToken hl
      refine ⟨code ++ l.code, r' + 1, l.operand :: l.rest, ?_, ?_, fun rest => ?_⟩
      · rw [List.length_append, hcode, hlen, Token.instructionCount_append]
      · rw [Token.height_append, hstack, hheight]
      · rw [List.append_assoc, hplan, List.singleton_append, plan_cons_of_ok hl, Plan.after_after]

/-- The plan of tokens with a fault ends there. -/
private theorem plan_of_faulty {symbols : SymbolTable} {ts : List Token}
    (hts : ∀ t ∈ ts, t.isOperand = true ∨ t.isOperator = true) {err : Error} (h : Faulty symbols ts err) (r : UInt32) :
    (plan symbols r ts []).result = .error err := by
  cases h with
  | @token before after t _ hsound ht =>
    obtain ⟨code, r', stack, -, hstack, hplan⟩ :=
      plan_append_of_sound (fun u hu => hts u (List.mem_append_left _ hu)) hsound r
    have htoken := hts t (List.mem_append_right _ List.mem_cons_self)
    have hl : lowerToken symbols ⟨r'⟩ t stack = .error err := (lowerToken_eq_error_iff hstack htoken).2 ht
    rw [hplan, plan_cons_of_error hl]
    rfl
  | ending hsound hheight =>
    obtain ⟨code, r', stack, -, hstack, hplan⟩ := plan_append_of_sound hts hsound r
    have hend := hplan []
    rw [List.append_nil] at hend
    rw [hend, Plan.result_after]
    rcases stack with _ | ⟨o, _ | ⟨o', stack⟩⟩
    · rfl
    · exact absurd hstack hheight
    · rfl

/-- Sound tokens of height one are lowered. -/
private theorem plan_of_sound {symbols : SymbolTable} {ts : List Token}
    (hts : ∀ t ∈ ts, t.isOperand = true ∨ t.isOperator = true) (h : Sound symbols ts) (hheight : height ts = 1)
    (r : UInt32) : ∃ o, (plan symbols r ts []).result = .ok o := by
  obtain ⟨code, r', stack, -, hstack, hplan⟩ := plan_append_of_sound hts h r
  have hend := hplan []
  rw [List.append_nil] at hend
  rw [hend, Plan.result_after]
  obtain ⟨o, rfl⟩ : ∃ o, stack = [o] := List.length_eq_one_iff.1 (by omega)
  exact ⟨o, rfl⟩

/-- Tokens have a fault, or they are sound and leave one entry. -/
private theorem faulty_or_sound (symbols : SymbolTable) (ts : List Token) :
    (∃ err, Faulty symbols ts err) ∨ Sound symbols ts ∧ height ts = 1 := by
  rcases Token.sound_or_exists_fails symbols ts with hsound | ⟨before, t, after, err, rfl, hbefore, ht⟩
  · by_cases hheight : height ts = 1
    · exact .inr ⟨hsound, hheight⟩
    · exact .inl ⟨_, .ending hsound hheight⟩
  · exact .inl ⟨err, .token hbefore ht⟩

theorem plan_eq_error_iff {symbols : SymbolTable} {ts : List Token}
    (hts : ∀ t ∈ ts, t.isOperand = true ∨ t.isOperator = true) (r : UInt32) (err : Error) :
    (plan symbols r ts []).result = .error err ↔ Faulty symbols ts err := by
  refine ⟨fun h => ?_, fun h => plan_of_faulty hts h r⟩
  rcases faulty_or_sound symbols ts with ⟨err', hfaulty⟩ | ⟨hsound, hheight⟩
  · have h' := plan_of_faulty hts hfaulty r
    rw [h] at h'
    cases h'
    exact hfaulty
  · obtain ⟨o, ho⟩ := plan_of_sound hts hsound hheight r
    rw [ho] at h
    cases h

private theorem Expr.name_mem_postorder {e : Expr} {x : Text} : .name x ∈ e.postorder ↔ x ∈ e.names := by
  induction e with
  | literal | name => simp [postorder, names]
  | binary op left right ihl ihr => simp [postorder, names, ihl, ihr]

private theorem Expr.instructionCount_postorder (e : Expr) : instructionCount e.postorder = e.codeSize := by
  rw [Token.instructionCount_eq]
  induction e with
  | literal | name => rfl
  | binary op left right ihl ihr => simp [postorder, codeSize, Token.codeSize, ihl, ihr, Nat.add_assoc]

private theorem exists_value {symbols : SymbolTable} {e : Expr} (h : ∀ x ∈ e.names, ∃ v, symbols.find? x = some v) :
    ∀ x ∈ e.names, ∃ v, symbols.find? x = some v ∧ v.value = symbols.store.value x := by
  intro x hx
  obtain ⟨v, hv⟩ := h x hx
  refine SymbolTable.exists_find?_of_mem_store ?_
  rw [SymbolTable.names_store, ← SymbolTable.find?_isSome, hv]
  rfl

/-- Lowering succeeds on the postorders of trees whose variables are declared, and on nothing else. -/
theorem plan_eq_ok_iff {symbols : SymbolTable} {ts : List Token}
    (hts : ∀ t ∈ ts, t.isOperand = true ∨ t.isOperator = true) (r : UInt32) :
    (∃ o, (plan symbols r ts []).result = .ok o) ↔
      ∃! e : Expr, ts = e.postorder ∧ ∀ x ∈ e.names, ∃ v, symbols.find? x = some v := by
  constructor
  · rintro ⟨o, ho⟩
    obtain ⟨e, rfl⟩ := eq_postorder_of_plan ho
    refine ⟨e, ⟨rfl, fun x hx => ?_⟩, fun e' he' => (Expr.postorder_injective he'.1).symm⟩
    rcases faulty_or_sound symbols e.postorder with ⟨err, hfaulty⟩ | ⟨hsound, -⟩
    · rw [plan_of_faulty hts hfaulty r] at ho
      cases ho
    · exact Token.exists_find?_of_sound hsound (Expr.name_mem_postorder.2 hx)
  · rintro ⟨e, ⟨rfl, hdeclared⟩, -⟩
    obtain ⟨code, -, hplan⟩ := plan_postorder_append (exists_value hdeclared) r [] []
    rw [List.append_nil] at hplan
    exact ⟨_, by rw [hplan]; rfl⟩

/-- The code of a plan is that of the tokens before the first one that fails. -/
private theorem exists_prefix_length_plan {symbols : SymbolTable} {ts : List Token}
    (hts : ∀ t ∈ ts, t.isOperand = true ∨ t.isOperator = true) (r : UInt32) :
    ∃ before, before <+: ts ∧ Sound symbols before ∧
      (plan symbols r ts []).code.length = instructionCount before := by
  rcases Token.sound_or_exists_fails symbols ts with hsound | ⟨before, t, after, err, rfl, hbefore, ht⟩
  · obtain ⟨code, r', stack, hcode, -, hplan⟩ := plan_append_of_sound hts hsound r
    have hend := hplan []
    rw [List.append_nil] at hend
    have hnil : (plan symbols r' [] stack).code = [] := by
      rcases stack with _ | ⟨o, _ | ⟨o', stack⟩⟩ <;> rfl
    refine ⟨ts, List.prefix_refl ts, hsound, ?_⟩
    rw [hend, Plan.code_after, hnil, List.append_nil, hcode]
  · obtain ⟨code, r', stack, hcode, hstack, hplan⟩ :=
      plan_append_of_sound (fun u hu => hts u (List.mem_append_left _ hu)) hbefore r
    have htoken := hts t (List.mem_append_right _ List.mem_cons_self)
    have hl : lowerToken symbols ⟨r'⟩ t stack = .error err := (lowerToken_eq_error_iff hstack htoken).2 ht
    refine ⟨before, List.prefix_append before _, hbefore, ?_⟩
    rw [hplan, plan_cons_of_error hl, Plan.code_after, List.append_nil, hcode]

namespace Compile

theorem lower_apply (ts : List Token) (c : Compilation) :
    lower ts c =
      ((lowerOn c.symbols c.options.limits.instructions ts [] c.emitter).1,
        { c with emitter := (lowerOn c.symbols c.options.limits.instructions ts [] c.emitter).2 }) := rfl

/-- Lowering follows its plan if there is room for the code of the tokens before the first one that fails. -/
private theorem lower_of_room {ts : List Token} (hts : ∀ t ∈ ts, t.isOperand = true ∨ t.isOperator = true)
    {c : Compilation} (hroom : ∀ before, before <+: ts → Sound c.symbols before → instructionCount before ≤ c.room) :
    (lower ts c).1 = (plan c.symbols c.emitter.nextRegister ts []).result ∧
      (lower ts c).2.code.toList = c.code.toList ++ (plan c.symbols c.emitter.nextRegister ts []).code := by
  obtain ⟨before, hprefix, hsound, hlen⟩ := exists_prefix_length_plan hts c.emitter.nextRegister
  have hfit : (plan c.symbols c.emitter.nextRegister ts []).code.length ≤ c.room := by
    rw [hlen]
    exact hroom before hprefix hsound
  obtain ⟨hresult, hcode⟩ := lowerOn_spec c.symbols c.options.limits.instructions ts [] c.emitter
  rw [lower_apply]
  refine ⟨?_, ?_⟩
  · rw [hresult, Plan.outcome]
    exact if_pos hfit
  · rw [← List.take_of_length_le hfit]
    exact hcode

/-- Operands and operators are lowered, where there is room, exactly if they are the postorder of a tree whose variables
are declared.  Then the operand has the value of the tree, and the number of instructions is that of the tokens.
Otherwise the error is that of the first token that fails, or that of the end.  Variables and diagnostics stay as they
are in any case. -/
theorem lower_iff_postorder (ts : List Token) (hts : ∀ t ∈ ts, t.isOperand = true ∨ t.isOperator = true)
    (c : Compilation) :
    (lower ts c).2.symbols = c.symbols ∧ (lower ts c).2.diagnostics = c.diagnostics ∧
      ((∀ before, before <+: ts → Sound c.symbols before → instructionCount before ≤ c.room) →
        ((∃ o, (lower ts c).1 = .ok o) ↔
            ∃! e : Expr, ts = e.postorder ∧ ∀ x ∈ e.names, ∃ v, c.symbols.find? x = some v) ∧
          (∀ (e : Expr) (o : Operand), ts = e.postorder → (lower ts c).1 = .ok o →
            o.value = e.eval c.symbols.store.value ∧
              (lower ts c).2.code.size = c.code.size + instructionCount ts) ∧
          ∀ err, (lower ts c).1 = .error err ↔ Faulty c.symbols ts err) := by
  refine ⟨rfl, rfl, fun hroom => ?_⟩
  obtain ⟨hresult, hcode⟩ := lower_of_room hts hroom
  rw [hresult]
  refine ⟨plan_eq_ok_iff hts _, ?_, plan_eq_error_iff hts _⟩
  rintro e o rfl ho
  obtain ⟨e', ⟨he', hdeclared⟩, -⟩ := (plan_eq_ok_iff hts c.emitter.nextRegister).1 ⟨o, ho⟩
  cases Expr.postorder_injective he'
  obtain ⟨code, hlen, hplan⟩ := plan_postorder_append (exists_value hdeclared) c.emitter.nextRegister [] []
  rw [List.append_nil] at hplan
  rw [hplan] at ho hcode
  refine ⟨?_, ?_⟩
  · cases ho
    rfl
  · have hsize := congrArg List.length hcode
    rw [Plan.code_after, plan, List.append_nil, List.length_append, hlen] at hsize
    rw [e.instructionCount_postorder]
    exact hsize

/-- Beside a declared variable, a product is lowered; a sum that finds one entry fails before a variable that is not
declared does. -/
theorem lower_iff_postorder_product :
    let c := (Compilation.start {}).process "int a = 9".toList
    let product : Expr := .binary .mul (.name ['a']) (.literal 2)
    (∃ o, (lower product.postorder c).1 = .ok o ∧ o.value = 18 ∧
        (lower product.postorder c).2.code.size = c.code.size + 4) ∧
      (lower [.literal 1, .operator .add, .name ['z']] c).1 = .error .malformedExpression := by
  intro c product
  have ha : c.symbols.find? ['a'] = some { name := ['a'], value := 9, offset := 8, declared := true } := by
    decide +kernel
  have hroom : ∀ ts, instructionCount ts ≤ 4 → ∀ before, before <+: ts → Sound c.symbols before →
      instructionCount before ≤ c.room := by
    intro ts hts before hprefix _
    have hle := Token.instructionCount_le_of_prefix hprefix
    have hc : c.room = 4093 := by decide +kernel
    omega
  obtain ⟨-, -, hproduct⟩ := lower_iff_postorder product.postorder (by decide) c
  obtain ⟨hok, hvalue, -⟩ := hproduct (hroom _ (by decide))
  obtain ⟨-, -, hsum⟩ := lower_iff_postorder [.literal 1, .operator .add, .name ['z']] (by decide) c
  obtain ⟨-, -, herror⟩ := hsum (hroom _ (by decide))
  have hdeclared : ∀ x ∈ product.names, ∃ v, c.symbols.find? x = some v := by
    intro x hx
    obtain rfl : x = ['a'] := by simpa [product, Expr.names] using hx
    exact ⟨_, ha⟩
  refine ⟨?_, (herror _).2 ?_⟩
  · obtain ⟨o, ho⟩ := hok.2 ⟨product, ⟨rfl, hdeclared⟩, fun e he => (Expr.postorder_injective he.1).symm⟩
    obtain ⟨heval, hsize⟩ := hvalue product o rfl ho
    exact ⟨o, ho, heval.trans (by decide +kernel), hsize⟩
  · refine @Faulty.token c.symbols [.literal 1] [.name ['z']] (.operator .add) _ ?_ (.operator (by decide))
    rintro before t after heq err hfails
    cases hfails <;> simp [List.cons_eq_append_iff] at heq

end Compile

end ArithMips
