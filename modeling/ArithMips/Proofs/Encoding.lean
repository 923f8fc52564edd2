import ArithMips.Mips.Decode
import ArithMips.Proofs.Execution

/-!
# Execution of instruction words

The word of an instruction is a sum of fields, and reading the fields gives the instruction back, if all of them fit
(`Instruction.Fits`): register numbers below 32, and an immediate of 16 bits with sign.  Then no field runs into
its neighbour, and the machine executes the words as it executes the instructions (`runWords_map_word`).

Compiled code fits as long as expressions have at most 28 tokens, literals have 16 bits and the table has at most
4095 variables, the last of them at offset `8 * 4095 = 32760` (`fits_ofProgram`).
-/

namespace ArithMips

namespace Mips

/-! ### Fields of a word -/

namespace Word

private theorem toNat_opcode (w : Word) : w.opcode.toNat = w.toNat / 67108864 := by
  simp [opcode, UInt32.toNat_shiftRight, Nat.shiftRight_eq_div_pow]

private theorem toNat_registerField (w shift : Word) (k : Nat) (hk : shift.toNat % 32 = k) :
    ((w >>> shift) &&& 31).toNat = w.toNat / 2 ^ k % 32 := by
  rw [UInt32.toNat_and, UInt32.toNat_shiftRight, hk, Nat.shiftRight_eq_div_pow]
  exact Nat.and_two_pow_sub_one_eq_mod _ 5

private theorem toNat_rs (w : Word) : w.rs.number.toNat = w.toNat / 2097152 % 32 := toNat_registerField w 21 21 rfl

private theorem toNat_rt (w : Word) : w.rt.number.toNat = w.toNat / 65536 % 32 := toNat_registerField w 16 16 rfl

private theorem toNat_rd (w : Word) : w.rd.number.toNat = w.toNat / 2048 % 32 := toNat_registerField w 11 11 rfl

private theorem toNat_funct (w : Word) : w.funct.toNat = w.toNat % 64 := by
  rw [funct, UInt32.toNat_and]
  exact Nat.and_two_pow_sub_one_eq_mod _ 6

private theorem toInt_immediate (w : Word) : w.immediate.toInt = ((w.toNat % 65536 : Nat) : Int).bmod 65536 := by
  have h : w.toUInt16.toInt16.toInt = (w.toUInt16.toNat : Int).bmod 65536 := BitVec.toInt_eq_toNat_bmod _
  rw [immediate, Int16.toInt_toInt64, h, UInt32.toNat_toUInt16]

end Word

/-- Shifting a number over a smaller one adds them up. -/
private theorem toNat_shiftLeft_or {a b shift : UInt32} {weight n : Nat} (hw : 2 ^ (shift.toNat % 32) = weight)
    (ha : a.toNat * weight < 4294967296) (hb : b.toNat = n) (hn : n < weight) :
    ((a <<< shift) ||| b).toNat = a.toNat * weight + n := by
  subst hb hw
  rw [UInt32.toNat_or, UInt32.toNat_shiftLeft, Nat.shiftLeft_eq, Nat.mod_eq_of_lt ha, ← Nat.shiftLeft_eq,
    Nat.shiftLeft_add_eq_or_of_lt hn]

private theorem Immediate.toNat_field (imm : Immediate) : imm.field.toNat = imm.number.toUInt64.toNat % 65536 := by
  have h : imm.field.toNat = imm.number.toUInt64.toNat % 4294967296 % 65536 := by
    rw [field, UInt32.toNat_and, UInt64.toNat_toUInt32]
    exact Nat.and_two_pow_sub_one_eq_mod _ 16
  omega

theorem Register.eq_of_toNat_eq {r s : Register} (h : r.number.toNat = s.number.toNat) : r = s := by
  cases r
  cases s
  exact congrArg _ (UInt32.toNat_inj.1 h)

theorem RegisterOp.toNat_funct_lt (op : RegisterOp) : op.funct.toNat < 64 := by
  cases op <;> decide

theorem ImmediateOp.toNat_opcode_lt (op : ImmediateOp) : op.opcode.toNat < 64 := by
  cases op <;> decide

namespace Instruction

/-- Whether every field of an instruction fits in its place in the word. -/
def Fits : Instruction → Prop
  | .register _ rs rt rd => rs.number.toNat < 32 ∧ rt.number.toNat < 32 ∧ rd.number.toNat < 32
  | .immediate _ rs rt imm => rs.number.toNat < 32 ∧ rt.number.toNat < 32 ∧
      -32768 ≤ imm.number.toInt ∧ imm.number.toInt ≤ 32767

theorem toNat_word_register {rs rt rd : Register} (hrs : rs.number.toNat < 32) (hrt : rt.number.toNat < 32)
    (hrd : rd.number.toNat < 32) (op : RegisterOp) :
    (register op rs rt rd).word.toNat =
      rs.number.toNat * 2097152 + (rt.number.toNat * 65536 + (rd.number.toNat * 2048 + op.funct.toNat)) := by
  have hop := op.toNat_funct_lt
  rw [word, UInt32.or_assoc, UInt32.or_assoc]
  refine toNat_shiftLeft_or rfl (by omega) (toNat_shiftLeft_or rfl (by omega)
    (toNat_shiftLeft_or rfl (by omega) rfl (by omega)) (by omega)) (by omega)

theorem toNat_word_immediate {rs rt : Register} (hrs : rs.number.toNat < 32) (hrt : rt.number.toNat < 32)
    (op : ImmediateOp) (imm : Immediate) :
    (immediate op rs rt imm).word.toNat =
      op.opcode.toNat * 67108864 + (rs.number.toNat * 2097152 + (rt.number.toNat * 65536 +
        imm.number.toUInt64.toNat % 65536)) := by
  have hop := op.toNat_opcode_lt
  rw [word, UInt32.or_assoc, UInt32.or_assoc]
  refine toNat_shiftLeft_or rfl (by omega) (toNat_shiftLeft_or rfl (by omega)
    (toNat_shiftLeft_or rfl (by omega) imm.toNat_field (by omega)) (by omega)) (by omega)

/-- The instruction with its immediate as a plain number. -/
def plain : Instruction → Instruction
  | .register op rs rt rd => .register op rs rt rd
  | .immediate op rs rt imm => .immediate op rs rt (.value imm.number)

/-- The word of an instruction whose fields fit writes that instruction. -/
private theorem decode?_word {i : Instruction} (h : i.Fits) : Word.decode? i.word = some i.plain := by
  cases i with
  | register op rs rt rd =>
    obtain ⟨hrs, hrt, hrd⟩ := h
    have hw := toNat_word_register hrs hrt hrd op
    have hop := op.toNat_funct_lt
    generalize (register op rs rt rd).word = w at hw
    have h0 : w.opcode = 0 := UInt32.toNat_inj.1 (by rw [Word.toNat_opcode, hw]; show _ = 0; omega)
    have h1 : w.funct = op.funct := UInt32.toNat_inj.1 (by rw [Word.toNat_funct, hw]; omega)
    have h2 : w.rs = rs := Register.eq_of_toNat_eq (by rw [Word.toNat_rs, hw]; omega)
    have h3 : w.rt = rt := Register.eq_of_toNat_eq (by rw [Word.toNat_rt, hw]; omega)
    have h4 : w.rd = rd := Register.eq_of_toNat_eq (by rw [Word.toNat_rd, hw]; omega)
    rw [Word.decode?, if_pos h0, h1, h2, h3, h4, Word.registerOp?_funct]
    rfl
  | immediate op rs rt imm =>
    obtain ⟨hrs, hrt, hlow, hhigh⟩ := h
    have hw := toNat_word_immediate hrs hrt op imm
    have hop := op.toNat_opcode_lt
    have hop' : op.opcode ≠ 0 := by cases op <;> decide
    have himm : imm.number.toInt = (imm.number.toUInt64.toNat : Int).bmod 18446744073709551616 :=
      BitVec.toInt_eq_toNat_bmod _
    have hlt : imm.number.toUInt64.toNat < 18446744073709551616 := UInt64.toNat_lt _
    generalize (immediate op rs rt imm).word = w at hw
    have h1 : w.opcode = op.opcode := UInt32.toNat_inj.1 (by rw [Word.toNat_opcode, hw]; omega)
    have h2 : w.rs = rs := Register.eq_of_toNat_eq (by rw [Word.toNat_rs, hw]; omega)
    have h3 : w.rt = rt := Register.eq_of_toNat_eq (by rw [Word.toNat_rt, hw]; omega)
    have h4 : w.immediate = imm.number := by
      have hlow16 : w.toNat % 65536 = imm.number.toUInt64.toNat % 65536 := by omega
      refine Int64.toInt_inj.1 ?_
      rw [Word.toInt_immediate, hlow16]
      -- Both sides are the one number of 16 bits with sign that is congruent to the immediate.
      generalize imm.number.toUInt64.toNat = n at *
      rw [himm] at hlow hhigh ⊢
      simp only [Int.bmod_def] at *
      split <;> split at hlow <;> omega
    rw [Word.decode?, if_neg (h1 ▸ hop'), h1, h2, h3, h4, Word.immediateOp?_opcode]
    rfl

end Instruction

namespace Machine

private theorem step_plain (m : Machine) (i : Instruction) : m.step i.plain = m.step i := by
  rcases i with ⟨op, rs, rt, rd⟩ | ⟨_ | _ | _, rs, rt, imm⟩ <;> rfl

/-- The machine executes the words of instructions whose fields fit as it executes the instructions. -/
theorem runWords_map_word {code : List Instruction} (h : ∀ i ∈ code, i.Fits) (m : Machine) :
    m.runWords (code.map Instruction.word) = m.run code := by
  induction code generalizing m with
  | nil => rfl
  | cons i code ih =>
    have hstep : m.stepWord i.word = m.step i := by
      rw [stepWord, Instruction.decode?_word (h i (by simp))]
      exact step_plain m i
    show (m.stepWord i.word).runWords (code.map Instruction.word) = _
    rw [hstep, ih (fun j hj => h j (List.mem_cons_of_mem _ hj)), run_cons]

end Machine

end Mips

open Mips

/-! ### Compiled code fits -/

/-- A token that is no literal, or a literal of 16 bits with sign. -/
def Token.IsShort : Token → Prop
  | .literal value => -32768 ≤ value.toInt ∧ value.toInt ≤ 32767
  | _ => True

instance : DecidablePred Token.IsShort
  | .literal _ => inferInstanceAs (Decidable (_ ∧ _))
  | .name _ | .operator _ | .lparen | .rparen | .stop => inferInstanceAs (Decidable True)

private theorem SymbolTable.WellFormed.offset_fits {t : SymbolTable} (h : t.WellFormed) (hsize : t.size ≤ 4095)
    {v : Variable} (hv : v ∈ t.entries) : -32768 ≤ v.offset.toInt ∧ v.offset.toInt ≤ 32767 := by
  obtain ⟨i, hi, e⟩ := h.exists_offset_eq hv
  rw [e, SymbolTable.toInt_offsetAt (by omega)]
  omega

section Plan

variable {symbols : SymbolTable}

private theorem fits_of_lowerToken (hw : symbols.WellFormed) (hsize : symbols.size ≤ 4095) {rd : Register}
    (hrd : rd.number.toNat < 32) {t : Token} (ht : t.IsShort) {stack : List Operand}
    (hs : ∀ o ∈ stack, o.register.number.toNat < 32) {l : Lowered} (h : lowerToken symbols rd t stack = .ok l)
    {i : Instruction} (hi : i ∈ l.code) : i.Fits := by
  have hzero : Register.zero.number.toNat < 32 := by decide
  rcases lowerToken_cases h with ⟨value, rfl, rfl⟩ | ⟨name, v, -, hv, rfl⟩ | ⟨op, right, left, _, -, rfl, rfl⟩
  · rw [List.mem_singleton.1 hi]
    exact ⟨hzero, hrd, ht⟩
  · rw [List.mem_singleton.1 hi]
    exact ⟨by decide, hrd, hw.offset_fits hsize (SymbolTable.mem_of_find?_eq_some hv).1⟩
  · have hl := hs left (by simp)
    have hr := hs right (by simp)
    cases op <;> simp only [Operator.code, List.mem_cons, List.not_mem_nil, or_false] at hi
    · subst hi; exact ⟨hl, hr, hrd⟩
    · subst hi; exact ⟨hl, hr, hrd⟩
    · rcases hi with rfl | rfl
      · exact ⟨hl, hr, hzero⟩
      · exact ⟨hzero, hzero, hrd⟩
    · rcases hi with rfl | rfl
      · exact ⟨hl, hr, hzero⟩
      · exact ⟨hzero, hzero, hrd⟩

/-- The code of a plan fits, and its operand is in one of the registers of the plan. -/
private theorem fits_of_plan (hw : symbols.WellFormed) (hsize : symbols.size ≤ 4095) {r : UInt32} {tokens : List Token}
    (hr : r.toNat + tokens.length ≤ 29) (ht : ∀ t ∈ tokens, t.IsShort) {stack : List Operand}
    (hs : ∀ o ∈ stack, o.register.number.toNat < r.toNat) :
    (∀ i ∈ (plan symbols r tokens stack).code, i.Fits) ∧
      ∀ o, (plan symbols r tokens stack).result = .ok o → o.register.number.toNat < 29 := by
  induction tokens generalizing r stack with
  | nil =>
    rcases stack with _ | ⟨o', _ | ⟨o'', stack⟩⟩
    · exact ⟨fun i hi => (by cases hi), fun o ho => (by cases ho)⟩
    · refine ⟨fun i hi => (by cases hi), fun o ho => ?_⟩
      cases ho
      have := hs o' (by simp)
      omega
    · exact ⟨fun i hi => (by cases hi), fun o ho => (by cases ho)⟩
  | cons t rest ih =>
    rw [List.length_cons] at hr
    rcases hl : lowerToken symbols ⟨r⟩ t stack with err | l
    · rw [plan_cons_of_error hl]
      exact ⟨fun i hi => (by cases hi), fun o ho => (by cases ho)⟩
    · rw [plan_cons_of_ok hl]
      have hr1 := toNat_succ_register (r := r) (by omega)
      obtain ⟨hreg, hrest⟩ := operand_of_lowerToken hl
      have hs' : ∀ o ∈ l.operand :: l.rest, o.register.number.toNat < (r + 1).toNat := by
        intro o ho
        rcases List.mem_cons.1 ho with rfl | ho
        · rw [hreg, hr1]; exact Nat.lt_succ_self _
        · have := hs o (hrest o ho)
          omega
      obtain ⟨hcode, hres⟩ := ih (by omega) (fun t ht' => ht t (List.mem_cons_of_mem _ ht')) hs'
      refine ⟨fun i hi => ?_, hres⟩
      rcases List.mem_append.1 hi with hi | hi
      · exact fits_of_lowerToken hw hsize (by show r.toNat < 32; omega) (ht t (by simp))
          (fun o ho => Nat.lt_of_lt_of_le (hs o ho) (by omega)) hl hi
      · exact hcode i hi

end Plan

private theorem fits_of_storeCode {o : Operand} {name : Text} {offset : Int64} (ho : o.register.number.toNat < 29)
    (hoff : -32768 ≤ offset.toInt ∧ offset.toInt ≤ 32767) {i : Instruction} (hi : i ∈ o.storeCode name offset) :
    i.Fits := by
  rcases List.mem_append.1 hi with hi | hi
  · split at hi
    · cases hi
    · rw [List.mem_singleton.1 hi]
      exact ⟨Nat.lt_of_lt_of_le ho (by decide), by decide, by decide⟩
  · rw [List.mem_singleton.1 hi]
    exact ⟨by decide, by decide, hoff⟩

namespace Compilation

private theorem fits_process {c : Compilation} {s : Text} (hw : c.symbols.WellFormed) (h : ∀ i ∈ c.code.toList, i.Fits)
    (hshort : ∀ tokens, Statement.lowered c.options c.symbols s = some tokens →
      tokens.length ≤ 28 ∧ ∀ t ∈ tokens, t.IsShort)
    (hsize : (c.process s).symbols.size ≤ 4095) : ∀ i ∈ (c.process s).code.toList, i.Fits := by
  obtain ⟨-, hcases⟩ := Effect.cases c.options c.symbols s (c.effect s) rfl
  have hw' := wellFormed_declared hw s
  have hsize' : (c.effect s).declared.size ≤ 4095 := by
    rw [(c.size_declared_le_process s).2]
    exact hsize
  suffices hf : ∀ i ∈ (c.effect s).code, i.Fits by
    intro i hi
    rw [code_process] at hi
    rcases List.mem_append.1 hi with hi | hi
    · exact h i hi
    · exact hf i (List.mem_of_mem_take hi)
  generalize c.effect s = f at *
  rcases hcases with ⟨hcode, -⟩ | ⟨tokens, ht, hcases⟩
  · rw [hcode]
    exact fun i hi => absurd hi List.not_mem_nil
  · obtain ⟨hlen, hlit⟩ := hshort tokens ht
    have hlen' : (1 : UInt32).toNat + tokens.length ≤ 29 := Nat.add_le_add_left hlen 1
    have hplan := fits_of_plan hw' hsize' hlen' hlit fun o ho => absurd ho List.not_mem_nil
    rcases hcases with ⟨hcode, -⟩ | ⟨o, name, v, hp, hv, hcode, -⟩
    · rw [hcode]
      exact hplan.1
    · rw [hcode]
      intro i hi
      rcases List.mem_append.1 hi with hi | hi
      · exact hplan.1 i hi
      · exact fits_of_storeCode (hplan.2 o hp)
          (hw'.offset_fits hsize' (SymbolTable.mem_of_find?_eq_some hv).1) hi

theorem fits_ofProgram {options : Options} {program : Text}
    (hshort : ∀ tokens ∈ expressions options program, tokens.length ≤ 28 ∧ ∀ t ∈ tokens, t.IsShort)
    (hsize : (ofProgram options program).symbols.size ≤ 4095) :
    ∀ i ∈ (ofProgram options program).code.toList, i.Fits := by
  have hopening : (opening options program).symbols.WellFormed ∧
      ∀ i ∈ (opening options program).code.toList, i.Fits := by
    rw [symbols_opening, code_opening]
    exact ⟨SymbolTable.wellFormed_empty _, fun i hi => absurd hi List.not_mem_nil⟩
  rw [ofProgram_eq] at hsize ⊢
  refine (processAll_induction (P := fun c => c.symbols.WellFormed ∧ ∀ i ∈ c.code.toList, i.Fits) ?_ hopening hshort
    (Nat.lt_succ_of_le hsize)).2
  intro c s h hlowered hsize'
  exact ⟨wellFormed_process h.1 s, fits_process h.1 h.2 hlowered (Nat.le_of_lt_succ hsize')⟩

/-- Executing the instruction words of a program, from a memory of zeros and any registers, leaves in the slot of
every variable the value that compilation has recorded.  Expressions that are lowered have at most 28 tokens and
literals of 16 bits with sign, and there are at most 4095 variables. -/
theorem memory_runWords_ofProgram (options : Options) (program : Text) (m : Machine) (hzero : ∀ a, m.memory a = 0)
    (hshort : ∀ tokens ∈ expressions options program, tokens.length ≤ 28 ∧ ∀ t ∈ tokens, t.IsShort)
    (hsize : (ofProgram options program).symbols.size ≤ 4095) :
    ∀ v ∈ (ofProgram options program).symbols.entries,
      (m.runWords ((ofProgram options program).code.toList.map Instruction.word)).memory (m.read .base + v.offset) =
        v.value := by
  have hagree := agrees_ofProgram hzero (fun tokens ht => (hshort tokens ht).1) (by omega)
  rw [Machine.runWords_map_word (fits_ofProgram hshort hsize)]
  exact hagree.slots

/-- The extreme literals of 16 bits, one of them in a statement that fails. -/
theorem memory_runWords_ofProgram_extreme :
    let program := "int a = -32768; int b = a * 32767 +; int c = a / (0 - 32767);".toList
    let m : Machine := { registers := fun _ => 4096, lo := 7, memory := fun _ => 0 }
    (ofProgram {} program).symbols.entries.map (fun v => (v.offset, v.value)) = [(8, -32768), (16, 0), (24, 1)] ∧
      ∀ v ∈ (ofProgram {} program).symbols.entries,
        (m.runWords ((ofProgram {} program).code.toList.map Instruction.word)).memory (m.read .base + v.offset) =
          v.value :=
  ⟨by decide +kernel, memory_runWords_ofProgram _ _ _ (fun _ => rfl) (by decide +kernel) (by decide +kernel)⟩

end Compilation

end ArithMips
