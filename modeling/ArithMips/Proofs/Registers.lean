import ArithMips.Proofs.Frame

/-!
# The registers of an expression

Lowering takes registers in order, one for each token, and the code of a token writes its own register with exactly
one instruction and no other register.  While it runs, the registers of the operands on the stack grow from the bottom
to the top and are below the next free one (`Ordered`), so the code that is still to come overwrites none of them.

`reach` gives the stack and the emitter with which lowering gets behind some tokens.  One token keeps `Ordered`
(`Ordered.of_lowerToken`), and a whole expression that is lowered goes through such states only
(`exists_disciplined`).  A declaration starts with register 1: the value of `n` tokens is in register `n` at the end,
so it is moved to the result register unless `n` is 3, and the base register is written from 29 tokens on
(`Compilation.register_discipline`).
-/

namespace ArithMips

open Mips (Instruction Register Machine)

/-- The registers that code writes, in order. -/
def Mips.Instruction.written (code : List Instruction) : List Nat :=
  (code.filterMap Instruction.target?).map (·.number.toNat)

/-- Whether the registers of a stack grow from the bottom to the top, up to a register that is free. -/
structure Ordered (r : UInt32) (stack : List Operand) : Prop where
  increasing : stack.reverse.Pairwise fun o o' => o.register.number < o'.register.number
  below : ∀ o ∈ stack, o.register.number < r

/-- The stack and the emitter with which lowering gets behind some tokens, if it gets there. -/
def reach (symbols : SymbolTable) (limit : Nat) : List Token → List Operand → Emitter → Option (List Operand × Emitter)
  | [], stack, e => some (stack, e)
  | t :: rest, stack, e =>
    match lowerToken symbols ⟨e.nextRegister⟩ t stack with
    | .error _ => none
    | .ok l =>
      match Emitter.emitAll limit l.code { e with nextRegister := e.nextRegister + 1 } with
      | (.ok _, e') => reach symbols limit rest (l.operand :: l.rest) e'
      | (.error _, _) => none

/-- Behind some tokens lowering goes on with the stack and the emitter that it has reached. -/
private theorem lowerOn_append_of_reach {symbols : SymbolTable} {limit : Nat} {ts : List Token}
    {stack stack' : List Operand}
    {e e' : Emitter} (h : reach symbols limit ts stack e = some (stack', e')) (rest : List Token) :
    lowerOn symbols limit (ts ++ rest) stack e = lowerOn symbols limit rest stack' e' := by
  induction ts generalizing stack e with
  | nil =>
    cases h
    rfl
  | cons t ts ih =>
    rw [reach] at h
    split at h
    · cases h
    · next l hl =>
      split at h
      · next e₁ he₁ =>
        rw [List.cons_append, lowerOn_cons_of_ok hl, he₁]
        exact ih h
      · cases h

/-! ### One token -/

theorem Ordered.nil (r : UInt32) : Ordered r [] := ⟨by simp, by simp⟩

/-- A register that is free may be put on top. -/
theorem Ordered.cons {r : UInt32} {stack : List Operand} (h : Ordered r stack) (hr : r.toNat + 1 < 2 ^ 32)
    (value : Int64) : Ordered (r + 1) (⟨⟨r⟩, value⟩ :: stack) := by
  have hlt : r < r + 1 := by
    rw [UInt32.lt_iff_toNat_lt, toNat_succ_register hr]
    omega
  refine ⟨?_, ?_⟩
  · rw [List.reverse_cons, List.pairwise_append]
    refine ⟨h.increasing, List.pairwise_singleton _ _, fun o ho o' ho' => ?_⟩
    rw [List.mem_singleton.1 ho']
    exact h.below o (List.mem_reverse.1 ho)
  · intro o ho
    rcases List.mem_cons.1 ho with rfl | ho
    · exact hlt
    · exact UInt32.lt_trans (h.below o ho) hlt

theorem Ordered.tail {r : UInt32} {o : Operand} {stack : List Operand} (h : Ordered r (o :: stack)) :
    Ordered r stack := by
  refine ⟨?_, fun o' ho' => h.below o' (List.mem_cons_of_mem _ ho')⟩
  have hincreasing := h.increasing
  rw [List.reverse_cons] at hincreasing
  exact (List.pairwise_append.1 hincreasing).1

/-- Lowering a token puts the free register on top of the stack. -/
theorem Ordered.of_lowerToken {symbols : SymbolTable} {r : UInt32} {t : Token} {stack : List Operand} {l : Lowered}
    (h : Ordered r stack) (hl : lowerToken symbols ⟨r⟩ t stack = .ok l) (hr : r.toNat + 1 < 2 ^ 32) :
    Ordered (r + 1) (l.operand :: l.rest) := by
  rcases lowerToken_cases hl with ⟨value, -, rfl⟩ | ⟨name, v, -, -, rfl⟩ | ⟨op, right, left, rest, -, rfl, rfl⟩
  · exact h.cons hr value
  · exact h.cons hr v.value
  · exact h.tail.tail.cons hr _

/-- Of the code of a token one instruction writes a register, and that is the register of the token. -/
private theorem filterMap_target?_of_lowerToken {symbols : SymbolTable} {rd : Register} {t : Token}
    {stack : List Operand}
    {l : Lowered} (h : lowerToken symbols rd t stack = .ok l) : l.code.filterMap Instruction.target? = [rd] := by
  rcases lowerToken_cases h with ⟨value, -, rfl⟩ | ⟨name, v, -, -, rfl⟩ | ⟨op, right, left, rest, -, rfl, rfl⟩
  · rfl
  · rfl
  · cases op <;> rfl

/-! ### A whole expression -/

/-- What holds when lowering has got behind the first `k` tokens, where `codes` are the codes of the tokens one by
one. -/
structure Moment (e : Emitter) (codes : List (List Instruction)) (k : Nat) (stack : List Operand) (e' : Emitter) :
    Prop where
  code : e'.code.toList = e.code.toList ++ (codes.take k).flatten
  nextRegister : e'.nextRegister.toNat = e.nextRegister.toNat + k
  ordered : Ordered e'.nextRegister stack
  result : 0 < k → ∃ o ∈ stack.head?, o.register.number.toNat = e.nextRegister.toNat + (k - 1)

theorem Moment.start {e : Emitter} {stack : List Operand} (h : Ordered e.nextRegister stack)
    (codes : List (List Instruction)) : Moment e codes 0 stack e :=
  ⟨by simp, rfl, h, by simp⟩

/-- How tokens use registers, if `codes` are their codes one by one. -/
structure Disciplined (symbols : SymbolTable) (limit : Nat) (tokens : List Token) (stack : List Operand) (e : Emitter)
    (codes : List (List Instruction)) : Prop where
  length_eq : codes.length = tokens.length
  targets : ∀ (k : Nat) (code : List Instruction), codes[k]? = some code →
    code.filterMap Instruction.target? = [⟨UInt32.ofNat (e.nextRegister.toNat + k)⟩]
  moments : ∀ k ≤ tokens.length, ∃ stack' e', reach symbols limit (tokens.take k) stack e = some (stack', e') ∧
    Moment e codes k stack' e'

theorem exists_disciplined {symbols : SymbolTable} {limit : Nat} {tokens : List Token} {stack : List Operand}
    {e : Emitter} {o : Operand} (h : (lowerOn symbols limit tokens stack e).1 = .ok o)
    (hstack : Ordered e.nextRegister stack) (hregisters : e.nextRegister.toNat + tokens.length < 2 ^ 32) :
    ∃ codes, Disciplined symbols limit tokens stack e codes := by
  induction tokens generalizing stack e with
  | nil =>
    refine ⟨[], rfl, by simp, fun k hk => ?_⟩
    obtain rfl : k = 0 := Nat.le_zero.1 hk
    exact ⟨stack, e, rfl, .start hstack []⟩
  | cons t rest ih =>
    rw [List.length_cons] at hregisters
    rcases hl : lowerToken symbols ⟨e.nextRegister⟩ t stack with err | l
    · rw [lowerOn_cons_of_error hl] at h
      cases h
    · rw [lowerOn_cons_of_ok hl] at h
      rcases hemit : Emitter.emitAll limit l.code { e with nextRegister := e.nextRegister + 1 } with ⟨_ | _, e₁⟩
      · rw [hemit] at h
        cases h
      · rw [hemit] at h
        -- The code of the token was written, and the next free register is one more.
        have hone : e₁.code.toList = e.code.toList ++ l.code ∧ e₁.nextRegister = e.nextRegister + 1 := by
          rw [Emitter.emitAll_apply] at hemit
          split at hemit
          · next hfit =>
            cases hemit
            exact ⟨by simp [List.take_of_length_le hfit], rfl⟩
          · cases hemit
        obtain ⟨hcode, hnext⟩ := hone
        have hsucc : e₁.nextRegister.toNat = e.nextRegister.toNat + 1 := by
          rw [hnext, toNat_succ_register (by omega)]
        have hordered : Ordered e₁.nextRegister (l.operand :: l.rest) := by
          rw [hnext]
          exact hstack.of_lowerToken hl (by omega)
        obtain ⟨codes, hlength, htargets, hmoments⟩ := ih h hordered (by omega)
        refine ⟨l.code :: codes, by simp [hlength], fun k code hk => ?_, fun k hk => ?_⟩
        · cases k with
          | zero =>
            cases hk
            rw [filterMap_target?_of_lowerToken hl, Nat.add_zero, UInt32.ofNat_toNat]
          | succ k =>
            rw [htargets k code hk, hsucc, Nat.add_assoc, Nat.add_comm 1 k]
        · cases k with
          | zero => exact ⟨stack, e, rfl, .start hstack _⟩
          | succ k =>
            obtain ⟨stack', e', hreach, hmoment⟩ := hmoments k (by simpa using hk)
            refine ⟨stack', e', ?_, ?_, ?_, hmoment.ordered, fun _ => ?_⟩
            · rw [List.take_succ_cons, reach, hl]
              dsimp only
              rw [hemit]
              exact hreach
            · rw [hmoment.code, hcode]
              simp
            · rw [hmoment.nextRegister, hsucc]
              omega
            · rcases Nat.eq_zero_or_pos k with rfl | hpos
              · cases hreach
                refine ⟨l.operand, rfl, ?_⟩
                rw [(operand_of_lowerToken hl).1]
                rfl
              · obtain ⟨o', ho', hregister⟩ := hmoment.result hpos
                exact ⟨o', ho', by omega⟩

namespace Disciplined

variable {symbols : SymbolTable} {limit : Nat} {tokens : List Token} {stack : List Operand} {e : Emitter}
  {codes : List (List Instruction)}

/-- The registers that are written are the next free ones, one for each token, each of them once. -/
theorem written (h : Disciplined symbols limit tokens stack e codes)
    (hregisters : e.nextRegister.toNat + tokens.length < 2 ^ 32) :
    Instruction.written codes.flatten = List.range' e.nextRegister.toNat tokens.length := by
  have hcodes : codes.map (List.filterMap Instruction.target?) =
      (List.range tokens.length).map fun k => [⟨UInt32.ofNat (e.nextRegister.toNat + k)⟩] := by
    refine List.ext_getElem? fun k => ?_
    rw [List.getElem?_map, List.getElem?_map]
    by_cases hk : k < codes.length
    · have hcode := List.getElem?_eq_getElem hk
      rw [hcode, Option.map_some, h.targets k _ hcode, List.getElem?_range (h.length_eq ▸ hk), Option.map_some]
    · rw [List.getElem?_eq_none (Nat.le_of_not_lt hk), List.getElem?_eq_none (by simpa [← h.length_eq] using hk)]
      rfl
  rw [Instruction.written, List.filterMap_flatten, hcodes, List.range'_eq_map_range, ← List.flatMap_def,
    ← List.map_eq_flatMap, List.map_map]
  refine List.map_congr_left fun k hk => ?_
  have hlt := List.mem_range.1 hk
  exact UInt32.toNat_ofNat_of_lt' (by simp only [UInt32.size]; omega)

/-- The code that is still to come leaves the registers of the stack alone. -/
theorem kept (h : Disciplined symbols limit tokens stack e codes)
    (hregisters : e.nextRegister.toNat + tokens.length < 2 ^ 32) {k : Nat} {stack' : List Operand} {e' : Emitter}
    (hmoment : Moment e codes k stack' e') {o : Operand} (ho : o ∈ stack') (m : Machine) :
    (m.run (codes.drop k).flatten).read o.register = m.read o.register := by
  refine Machine.read_run_of_ne (fun i hi htarget => ?_) m
  obtain ⟨code, hcode, hi⟩ := List.mem_flatten.1 hi
  obtain ⟨j, hj⟩ := List.mem_iff_getElem?.1 hcode
  rw [List.getElem?_drop] at hj
  have hlt : k + j < tokens.length := by
    rw [← h.length_eq]
    exact (List.getElem?_eq_some_iff.1 hj).1
  -- The instruction writes the register of its own token, which is not below the next free one.
  have hmem : o.register ∈ code.filterMap Instruction.target? := List.mem_filterMap.2 ⟨i, hi, htarget⟩
  rw [h.targets _ code hj, List.mem_singleton] at hmem
  have hnumber : o.register.number.toNat = e.nextRegister.toNat + (k + j) := by
    rw [hmem]
    exact UInt32.toNat_ofNat_of_lt' (by simp only [UInt32.size]; omega)
  have hbelow := UInt32.lt_iff_toNat_lt.1 (hmoment.ordered.below o ho)
  have hnext := hmoment.nextRegister
  omega

/-- At the end the result is alone on the stack. -/
theorem ending (h : Disciplined symbols limit tokens [] e codes) {o : Operand}
    (ho : (lowerOn symbols limit tokens [] e).1 = .ok o) :
    0 < tokens.length ∧ Moment e codes tokens.length [o] (lowerOn symbols limit tokens [] e).2 := by
  obtain ⟨stack', e', hreach, hmoment⟩ := h.moments tokens.length (Nat.le_refl _)
  rw [List.take_length] at hreach
  have hlower := lowerOn_append_of_reach hreach []
  rw [List.append_nil] at hlower
  rw [hlower] at ho ⊢
  rcases stack' with _ | ⟨o', _ | ⟨o'', stack'⟩⟩
  · cases ho
  · cases ho
    refine ⟨Nat.pos_of_ne_zero fun hzero => ?_, hmoment⟩
    -- Without tokens the stack stays empty.
    rw [List.eq_nil_of_length_eq_zero hzero] at hreach
    cases hreach
  · cases ho

end Disciplined

/-! ### Declarations -/

private theorem exists_target?_iff (code : List Instruction) (d : Register) :
    (∃ i ∈ code, i.target? = some d) ↔ d.number.toNat ∈ Instruction.written code := by
  rw [← List.mem_filterMap, Instruction.written, List.mem_map]
  constructor
  · intro hd
    exact ⟨d, hd, rfl⟩
  · rintro ⟨d', hd', hnumber⟩
    have heq : d' = d := by
      obtain ⟨number⟩ := d
      obtain ⟨number'⟩ := d'
      exact congrArg Register.mk (UInt32.toNat_inj.1 hnumber)
    exact heq ▸ hd'

/-- The value of an expression is in the register whose number is that of its tokens. -/
private theorem Compile.registers_of_expression {c : Compilation} {s : Text} {tokens : List Token} {o : Operand}
    (hanalysed : (s.analyse c.options).result = .ok tokens) (ho : (expression s c).1 = .ok o)
    (htokens : tokens.length + 1 < 2 ^ 32) :
    (plan c.symbols 1 tokens []).code.length ≤ c.room ∧ (plan c.symbols 1 tokens []).result = .ok o ∧
      o.register = ⟨UInt32.ofNat tokens.length⟩ ∧
      Instruction.written (plan c.symbols 1 tokens []).code = List.range' 1 tokens.length := by
  obtain ⟨tokens', hanalysed', hfit, hplan⟩ := fst_expression_eq_ok.1 ho
  cases hanalysed.symm.trans hanalysed'
  rw [expression_apply hanalysed] at ho
  have hone : (1 : UInt32).toNat = 1 := rfl
  have hregisters : (1 : UInt32).toNat + tokens.length < 2 ^ 32 := by omega
  obtain ⟨codes, hcodes⟩ := exists_disciplined ho (.nil _) hregisters
  obtain ⟨hpos, hend⟩ := hcodes.ending ho
  have hflatten : (plan c.symbols 1 tokens []).code = codes.flatten := by
    have hcode := hend.code
    rw [List.take_of_length_le (Nat.le_of_eq hcodes.length_eq), (lowerOn_spec _ _ _ _ _).2] at hcode
    have hroom : (plan c.symbols 1 tokens []).code.take c.room = codes.flatten := List.append_cancel_left hcode
    rw [← hroom, List.take_of_length_le hfit]
  have hregister : o.register = ⟨UInt32.ofNat tokens.length⟩ := by
    obtain ⟨o', ho', hnumber⟩ := hend.result hpos
    cases ho'
    have hlength : o.register.number.toNat = tokens.length := by
      change o.register.number.toNat = (1 : UInt32).toNat + (tokens.length - 1) at hnumber
      omega
    rw [← hlength, UInt32.ofNat_toNat]
  refine ⟨hfit, hplan, hregister, ?_⟩
  rw [hflatten]
  exact hcodes.written hregisters

/-- What a declaration does with the value of an expression of `n` tokens. -/
def storeCodeOf (n : Nat) (x : Text) (offset : Int64) : List Instruction :=
  (if n = 3 then [] else [.mv .result ⟨UInt32.ofNat n⟩]) ++ [.sd .result x offset]

private theorem storeCode_eq_storeCodeOf {o : Operand} {n : Nat} (hn : n < 2 ^ 32) (ho : o.register = ⟨UInt32.ofNat n⟩)
    (x : Text) (offset : Int64) : o.storeCode x offset = storeCodeOf n x offset := by
  have hthree : (⟨UInt32.ofNat n⟩ : Register) = .result ↔ n = 3 := by
    rw [Register.result, Register.mk.injEq, ← UInt32.toNat_inj,
      UInt32.toNat_ofNat_of_lt' (by simp only [UInt32.size]; omega)]
    rfl
  simp only [Operand.storeCode, storeCodeOf, ho, hthree]

namespace Compilation

/-- The code of a declaration whose expression was lowered: that of the expression, and what there is room for of the
code that stores its value. -/
private theorem code_process_of_declaration {c : Compilation} {s x e : Text} {t : SymbolTable} {tokens : List Token}
    {o : Operand} (hparse : Statement.parse c.options.limits s = .ok (.declaration x e))
    (hdeclare : c.symbols.declare x = .ok t) (hanalysed : (e.analyse c.options).result = .ok tokens)
    (ho : (Compile.expression e { c with symbols := t }).1 = .ok o) (htokens : tokens.length + 1 < 2 ^ 32) :
    ∃ v code rest, t.find? x = some v ∧ (c.process s).code.toList = c.code.toList ++ (code ++ rest) ∧
      Instruction.written code = List.range' 1 tokens.length ∧ rest <+: storeCodeOf tokens.length x v.offset ∧
      ((Compile.statement s (c.enter s.trim)).1 = .ok () → rest = storeCodeOf tokens.length x v.offset) := by
  obtain ⟨v, hv⟩ := SymbolTable.exists_find?_of_declare hdeclare
  obtain ⟨hfit, hplan, hregister, hwritten⟩ :=
    Compile.registers_of_expression (c := { c with symbols := t }) hanalysed ho htokens
  have hstore := storeCode_eq_storeCodeOf (by omega) hregister x v.offset
  have heffect : c.effect s = .ofExpression c.options t e (Effect.storing t x) := by
    simp only [effect, Effect.ofStatement, hparse, hdeclare]
  rw [Effect.ofExpression_of_plan hanalysed hplan, Effect.storing, hv] at heffect
  dsimp only at heffect
  rw [hstore] at heffect
  have hroom : (plan t 1 tokens []).code.length ≤ c.room := hfit
  have hprocess := c.code_process s
  rw [heffect, List.take_append, List.take_of_length_le hroom] at hprocess
  refine ⟨v, _, _, hv, hprocess, hwritten, List.take_prefix _ _, fun hok => List.take_of_length_le ?_⟩
  -- A statement that ends well had room for all its code.
  rw [fst_statement, heffect, Effect.outcome] at hok
  split at hok
  · next hall =>
    rw [List.length_append] at hall
    exact Nat.le_sub_of_add_le' hall
  · cases hok

/-- The code that stores a value writes the result register or none. -/
private theorem target?_of_mem_storeCodeOf {n : Nat} {x : Text} {offset : Int64} {i : Instruction}
    (hi : i ∈ storeCodeOf n x offset) {d : Register} (hd : i.target? = some d) : d = .result := by
  rcases List.mem_append.1 hi with hi | hi
  · split at hi
    · cases hi
    · rw [List.mem_singleton.1 hi] at hd
      cases hd
      rfl
  · rw [List.mem_singleton.1 hi] at hd
    cases hd

/-- Lowering tokens writes one register for each of them, in order and by one instruction, and no other one; the stack
is ordered at every moment, what is on it is not overwritten, and the value is in the last register.  So the code of a
declaration, which starts with register 1, moves the value to the result register unless it has three tokens, never
writes register 0, and writes the base register from 29 tokens on. -/
theorem register_discipline :
    (∀ (c : Compilation) (tokens : List Token) (o : Operand), (Compile.lower tokens c).1 = .ok o →
      c.emitter.nextRegister.toNat + tokens.length < 2 ^ 32 →
      ∃ codes : List (List Instruction), (Compile.lower tokens c).2.code.toList = c.code.toList ++ codes.flatten ∧
        Disciplined c.symbols c.options.limits.instructions tokens [] c.emitter codes ∧
        Instruction.written codes.flatten = List.range' c.emitter.nextRegister.toNat tokens.length ∧
        (∀ k ≤ tokens.length, ∀ stack e,
          reach c.symbols c.options.limits.instructions (tokens.take k) [] c.emitter = some (stack, e) →
            lowerOn c.symbols c.options.limits.instructions tokens [] c.emitter =
                lowerOn c.symbols c.options.limits.instructions (tokens.drop k) stack e ∧
              ∀ o' ∈ stack, ∀ m : Machine, (m.run (codes.drop k).flatten).read o'.register = m.read o'.register) ∧
        o.register.number.toNat = c.emitter.nextRegister.toNat + (tokens.length - 1) ∧
        (Compile.lower tokens c).2.emitter.nextRegister.toNat = c.emitter.nextRegister.toNat + tokens.length) ∧
    ∀ (c : Compilation) (s x e : Text) (t : SymbolTable) (tokens : List Token) (o : Operand),
      Statement.parse c.options.limits s = .ok (.declaration x e) → c.symbols.declare x = .ok t →
      (e.analyse c.options).result = .ok tokens → (Compile.expression e { c with symbols := t }).1 = .ok o →
      tokens.length + 1 < 2 ^ 32 →
      ∃ v code rest, t.find? x = some v ∧ (c.process s).code.toList = c.code.toList ++ (code ++ rest) ∧
        Instruction.written code = List.range' 1 tokens.length ∧ rest <+: storeCodeOf tokens.length x v.offset ∧
        ((Compile.statement s (c.enter s.trim)).1 = .ok () → rest = storeCodeOf tokens.length x v.offset) ∧
        (∀ i ∈ code ++ rest, i.target? ≠ some .zero) ∧
        ((∃ i ∈ code ++ rest, i.target? = some .base) ↔ 29 ≤ tokens.length) := by
  constructor
  · intro c tokens o ho hregisters
    obtain ⟨codes, hcodes⟩ := exists_disciplined ho (.nil _) hregisters
    obtain ⟨hpos, hend⟩ := hcodes.ending ho
    refine ⟨codes, ?_, hcodes, hcodes.written hregisters, fun k hk stack e hreach => ⟨?_, fun o' ho' m => ?_⟩, ?_,
      hend.nextRegister⟩
    · have hcode := hend.code
      rw [List.take_of_length_le (Nat.le_of_eq hcodes.length_eq)] at hcode
      exact hcode
    · rw [← lowerOn_append_of_reach hreach, List.take_append_drop]
    · obtain ⟨stack', e', hreach', hmoment⟩ := hcodes.moments k hk
      cases hreach.symm.trans hreach'
      exact hcodes.kept hregisters hmoment ho' m
    · obtain ⟨o', ho', hregister⟩ := hend.result hpos
      cases ho'
      exact hregister
  · intro c s x e t tokens o hparse hdeclare hanalysed ho htokens
    obtain ⟨v, code, rest, hv, hprocess, hwritten, hrest, hall⟩ :=
      code_process_of_declaration hparse hdeclare hanalysed ho htokens
    have hstore : ∀ i ∈ rest, ∀ d, i.target? = some d → d = .result :=
      fun i hi d hd => target?_of_mem_storeCodeOf (hrest.subset hi) hd
    -- The registers of the expression have the numbers from 1 on.
    have hexpression : ∀ d : Register, (∃ i ∈ code, i.target? = some d) ↔
        1 ≤ d.number.toNat ∧ d.number.toNat < 1 + tokens.length := by
      intro d
      rw [exists_target?_iff, hwritten, List.mem_range'_1]
    refine ⟨v, code, rest, hv, hprocess, hwritten, hrest, hall, fun i hi hzero => ?_, ?_⟩
    · rcases List.mem_append.1 hi with hi | hi
      · have hone := ((hexpression .zero).1 ⟨i, hi, hzero⟩).1
        exact absurd hone (by decide)
      · exact absurd (hstore i hi _ hzero) (by decide)
    · have hbase : Register.base.number.toNat = 29 := rfl
      constructor
      · rintro ⟨i, hi, htarget⟩
        rcases List.mem_append.1 hi with hi | hi
        · have hlt := ((hexpression .base).1 ⟨i, hi, htarget⟩).2
          omega
        · exact absurd (hstore i hi _ htarget) (by decide)
      · intro hlong
        obtain ⟨i, hi, htarget⟩ := (hexpression .base).2 (by omega)
        exact ⟨i, List.mem_append_left _ hi, htarget⟩

/-- Five tokens behind register 6, and a declaration with the same expression. -/
theorem register_discipline_five :
    let c := (start {}).process "1 + 2 - 3".toList
    let tokens : List Token := [.literal 4, .literal 5, .operator .mul, .literal 6, .operator .sub]
    c.emitter.nextRegister = 6 ∧
      (∃ codes : List (List Instruction), (Compile.lower tokens c).2.code.toList = c.code.toList ++ codes.flatten ∧
        Instruction.written codes.flatten = [6, 7, 8, 9, 10]) ∧
      ∃ (v : Variable) (code rest : List Instruction),
        (c.process "int a = 4 * 5 - 6".toList).code.toList = c.code.toList ++ (code ++ rest) ∧
          Instruction.written code = [1, 2, 3, 4, 5] ∧
          rest = [.mv .result ⟨5⟩, .sd .result ['a'] v.offset] ∧ ¬∃ i ∈ code ++ rest, i.target? = some .base := by
  intro c tokens
  have hnext : c.emitter.nextRegister = 6 := by decide +kernel
  obtain ⟨codes, hcode, -, hwritten, -⟩ :=
    register_discipline.1 c tokens ⟨⟨10⟩, 14⟩ (by decide +kernel) (by rw [hnext]; decide)
  rw [hnext] at hwritten
  obtain ⟨v, code, rest, -, hprocess, hregisters, -, hall, -, hbase⟩ :=
    register_discipline.2 c "int a = 4 * 5 - 6".toList ['a'] "4 * 5 - 6".toList (c.symbols.add ['a']) tokens ⟨⟨5⟩, 14⟩
      (by decide +kernel) (by decide +kernel) (by decide +kernel) (by decide +kernel) (by decide)
  refine ⟨hnext, ⟨codes, hcode, hwritten⟩, v, code, rest, hprocess, hregisters, hall (by decide +kernel), ?_⟩
  rw [hbase]
  decide

end Compilation

end ArithMips
