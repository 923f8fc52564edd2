import ArithMips.Mips.Machine
import ArithMips.Proofs.Process

/-!
# Execution of compiled code

The code of a program computes, on the machine, the values that compilation has recorded.  The argument has two
layers.

* Inside an expression, every operand on the stack is in a register below the next free one, and that register
  holds the operand's value (`Holds`).  Lowering a token keeps this, since it writes the next free register only
  (`read_run_plan`).  With at most 28 tokens the base register stays out of reach.
* Between statements, the slot of every variable holds its recorded value and the rest of the memory is zero
  (`Agrees`).  A declaration finds a slot that is still zero.  A statement that ends early has written registers
  only, whatever the point at which it stopped: the one instruction that stores comes last.

The result is `agrees_ofProgram`, for whole runs and whether or not statements fail.
-/

namespace ArithMips

open Mips

/-! ### What an instruction writes -/

namespace Mips.Instruction

/-- The register that an instruction writes, if it writes one. -/
def target? : Instruction → Option Register
  | .register .daddu _ _ rd | .register .dsubu _ _ rd | .register .mflo _ _ rd => some rd
  | .register .dmult .. | .register .ddiv .. => none
  | .immediate .daddiu _ rt _ | .immediate .ld _ rt _ => some rt
  | .immediate .sd .. => none

/-- Whether an instruction writes the memory. -/
def isStore : Instruction → Bool
  | .immediate .sd .. => true
  | _ => false

/-- An instruction that writes neither the memory nor the base register. -/
def Quiet (i : Instruction) : Prop := i.isStore = false ∧ i.target? ≠ some .base

end Mips.Instruction

namespace Mips.Machine

private theorem read_step_of_ne {i : Instruction} {r : Register} (h : i.target? ≠ some r) (m : Machine) :
    (m.step i).read r = m.read r := by
  rcases i with ⟨_ | _ | _ | _ | _, rs, rt, rd⟩ | ⟨_ | _ | _, rs, rt, imm⟩ <;>
    simp only [Instruction.target?, ne_eq, Option.some.injEq] at h <;>
    first
    | exact read_write_of_ne _ (Ne.symm h) _
    | rfl

theorem memory_step {i : Instruction} (h : i.isStore = false) (m : Machine) : (m.step i).memory = m.memory := by
  rcases i with ⟨_ | _ | _ | _ | _, rs, rt, rd⟩ | ⟨_ | _ | _, rs, rt, imm⟩
  case immediate.sd => simp [Instruction.isStore] at h
  all_goals rfl

theorem read_run_of_ne {code : List Instruction} {r : Register} (h : ∀ i ∈ code, i.target? ≠ some r)
    (m : Machine) : (m.run code).read r = m.read r := by
  induction code generalizing m with
  | nil => rfl
  | cons i code ih =>
    rw [run_cons, ih (fun j hj => h j (List.mem_cons_of_mem _ hj)), read_step_of_ne (h i (by simp))]

private theorem memory_run {code : List Instruction} (h : ∀ i ∈ code, i.isStore = false) (m : Machine) :
    (m.run code).memory = m.memory := by
  induction code generalizing m with
  | nil => rfl
  | cons i code ih =>
    rw [run_cons, ih (fun j hj => h j (List.mem_cons_of_mem _ hj)), memory_step (h i (by simp))]

end Mips.Machine

/-! ### One token -/

/-- The code of a token writes no memory, and no register but the one for its result. -/
theorem target?_of_lowerToken {symbols : SymbolTable} {rd : Register} {t : Token} {stack : List Operand}
    {l : Lowered} (h : lowerToken symbols rd t stack = .ok l) {i : Instruction} (hi : i ∈ l.code) :
    i.isStore = false ∧ ∀ d, i.target? = some d → d = rd := by
  have hwrite : ∀ d, some rd = some d → d = rd := fun d hd => (Option.some.inj hd).symm
  have hnone : ∀ d : Register, none = some d → d = rd := fun d hd => by cases hd
  rcases lowerToken_cases h with ⟨_, -, rfl⟩ | ⟨_, _, -, -, rfl⟩ | ⟨op, _, _, _, -, -, rfl⟩
  · rw [List.mem_singleton.1 hi]
    exact ⟨rfl, hwrite⟩
  · rw [List.mem_singleton.1 hi]
    exact ⟨rfl, hwrite⟩
  · cases op <;> simp only [Operator.code, List.mem_cons, List.not_mem_nil, or_false] at hi
    · subst hi; exact ⟨rfl, hwrite⟩
    · subst hi; exact ⟨rfl, hwrite⟩
    · rcases hi with rfl | rfl
      · exact ⟨rfl, hnone⟩
      · exact ⟨rfl, hwrite⟩
    · rcases hi with rfl | rfl
      · exact ⟨rfl, hnone⟩
      · exact ⟨rfl, hwrite⟩

theorem operand_of_lowerToken {symbols : SymbolTable} {rd : Register} {t : Token} {stack : List Operand}
    {l : Lowered} (h : lowerToken symbols rd t stack = .ok l) :
    l.operand.register = rd ∧ ∀ o ∈ l.rest, o ∈ stack := by
  rcases lowerToken_cases h with ⟨_, -, rfl⟩ | ⟨_, _, -, -, rfl⟩ | ⟨_, _, _, _, -, rfl, rfl⟩
  · exact ⟨rfl, fun _ ho => ho⟩
  · exact ⟨rfl, fun _ ho => ho⟩
  · exact ⟨rfl, fun _ ho => List.mem_cons_of_mem _ (List.mem_cons_of_mem _ ho)⟩

/-- Whether the machine has the recorded values of the variables in their slots. -/
def Loads (m : Machine) (symbols : SymbolTable) : Prop :=
  ∀ name v, symbols.find? name = some v → m.memory (m.read .base + v.offset) = v.value

private theorem read_run_lowerToken {symbols : SymbolTable} {rd : Register} {t : Token} {stack : List Operand}
    {l : Lowered} {m : Machine} (h : lowerToken symbols rd t stack = .ok l) (hrd : rd ≠ .zero)
    (hm : Loads m symbols) (hs : ∀ o ∈ stack, m.read o.register = o.value) :
    (m.run l.code).read rd = l.operand.value := by
  rcases lowerToken_cases h with ⟨value, -, rfl⟩ | ⟨name, v, -, hv, rfl⟩ | ⟨op, right, left, _, -, rfl, rfl⟩
  · show (m.write rd (m.read .zero + value)).read rd = value
    rw [Machine.read_write_self _ hrd, Machine.read_zero, Int64.zero_add]
  · show (m.write rd (m.memory (m.read .base + v.offset))).read rd = v.value
    rw [Machine.read_write_self _ hrd, hm name v hv]
  · have hl : m.read left.register = left.value := hs left (by simp)
    have hr : m.read right.register = right.value := hs right (by simp)
    -- Products and quotients pass through the product register on their way to `rd`.
    have hrun : (m.run (op.code rd left.register right.register)).read rd =
        op.apply (m.read left.register) (m.read right.register) := by
      cases op <;> exact Machine.read_write_self _ hrd _
    rw [hrun, hl, hr]

/-! ### One expression -/

section Plan

variable {symbols : SymbolTable} {r : UInt32} {tokens : List Token} {stack : List Operand}

theorem toNat_succ_register {r : UInt32} (h : r.toNat + 1 < 2 ^ 32) : (r + 1).toNat = r.toNat + 1 := by
  rw [UInt32.toNat_add]
  exact Nat.mod_eq_of_lt h

/-- The code of a plan writes no memory, and the registers from the first one on only, one for each token. -/
private theorem target?_of_plan (hr : r.toNat + tokens.length ≤ 29) {i : Instruction}
    (hi : i ∈ (plan symbols r tokens stack).code) :
    i.isStore = false ∧ ∀ d, i.target? = some d → r.toNat ≤ d.number.toNat ∧
      d.number.toNat < r.toNat + tokens.length := by
  induction tokens generalizing r stack with
  | nil =>
    have hnil : (plan symbols r [] stack).code = [] := by
      rcases stack with _ | ⟨o, _ | ⟨o', stack⟩⟩ <;> rfl
    rw [hnil] at hi
    cases hi
  | cons t rest ih =>
    rw [List.length_cons] at hr ⊢
    rcases h : lowerToken symbols ⟨r⟩ t stack with err | l
    · rw [plan_cons_of_error h] at hi
      cases hi
    · rw [plan_cons_of_ok h, Plan.code_after] at hi
      rcases List.mem_append.1 hi with hi | hi
      · obtain ⟨hst, ht⟩ := target?_of_lowerToken h hi
        refine ⟨hst, fun d hd => ?_⟩
        rw [ht d hd]
        exact ⟨Nat.le_refl _, by show r.toNat < _; omega⟩
      · have hr1 := toNat_succ_register (r := r) (by omega)
        obtain ⟨hst, ht⟩ := ih (by omega) hi
        refine ⟨hst, fun d hd => ?_⟩
        have := ht d hd
        omega

private theorem quiet_of_plan (hr : r.toNat + tokens.length ≤ 29) {i : Instruction}
    (hi : i ∈ (plan symbols r tokens stack).code) : i.Quiet := by
  obtain ⟨hst, ht⟩ := target?_of_plan hr hi
  refine ⟨hst, fun hb => ?_⟩
  have := (ht _ hb).2
  have : Register.base.number.toNat = 29 := rfl
  omega

/-- Whether every operand is in a register below the next free one, with its value. -/
def Holds (m : Machine) (r : UInt32) (stack : List Operand) : Prop :=
  ∀ o ∈ stack, o.register.number.toNat < r.toNat ∧ m.read o.register = o.value

/-- The code of a plan computes the value of its operand. -/
theorem read_run_plan {m : Machine} (hpos : 0 < r.toNat) (hr : r.toNat + tokens.length ≤ 29)
    (hm : Loads m symbols) (hs : Holds m r stack) {o : Operand} (h : (plan symbols r tokens stack).result = .ok o) :
    (m.run (plan symbols r tokens stack).code).read o.register = o.value := by
  -- The induction is on the tokens; registers below `r` keep the operands that wait on the stack.
  induction tokens generalizing r stack m with
  | nil =>
    rcases stack with _ | ⟨o', _ | ⟨o'', stack⟩⟩
    · cases h
    · cases h
      exact (hs o (by simp)).2
    · cases h
  | cons t rest ih =>
    rw [List.length_cons] at hr
    rcases hl : lowerToken symbols ⟨r⟩ t stack with err | l
    · rw [plan_cons_of_error hl] at h
      cases h
    · rw [plan_cons_of_ok hl] at h ⊢
      rw [Plan.code_after, Machine.run_append]
      rw [Plan.result_after] at h
      have hr1 := toNat_succ_register (r := r) (by omega)
      have hrd : (⟨r⟩ : Register) ≠ .zero := by
        rintro ⟨rfl⟩
        exact absurd hpos (by decide)
      have hkeep : ∀ s : Register, s.number ≠ r → (m.run l.code).read s = m.read s := by
        intro s hs
        refine Machine.read_run_of_ne (fun i hi ht => hs ?_) m
        rw [(target?_of_lowerToken hl hi).2 s ht]
      have hbase : (m.run l.code).read .base = m.read .base := by
        refine hkeep _ fun hb => ?_
        have : r.toNat = 29 := congrArg UInt32.toNat hb.symm
        omega
      refine ih (by omega) (by omega) ?_ ?_ h
      · intro name v hv
        rw [hbase, Machine.memory_run fun i hi => (target?_of_lowerToken hl hi).1]
        exact hm name v hv
      · obtain ⟨hreg, hrest⟩ := operand_of_lowerToken hl
        intro o' ho'
        rcases List.mem_cons.1 ho' with rfl | ho'
        · rw [hreg, hr1]
          exact ⟨Nat.lt_succ_self _, read_run_lowerToken hl hrd hm fun o ho => (hs o ho).2⟩
        · obtain ⟨hlt, hval⟩ := hs o' (hrest o' ho')
          refine ⟨by omega, ?_⟩
          rw [hkeep _ fun e => ?_, hval]
          rw [e] at hlt
          exact absurd hlt (Nat.lt_irrefl _)

end Plan

/-! ### One statement -/

/-- Whether the slots of a table hold the recorded values, behind the given base, and the rest of the memory is
zero. -/
structure Agrees (m : Machine) (base : Int64) (t : SymbolTable) : Prop where
  read_base : m.read .base = base
  slots : ∀ v ∈ t.entries, m.memory (base + v.offset) = v.value
  rest : ∀ a, (∀ v ∈ t.entries, a ≠ base + v.offset) → m.memory a = 0

namespace Agrees

variable {m : Machine} {base : Int64} {t : SymbolTable}

private theorem loads (h : Agrees m base t) : Loads m t := by
  intro name v hv
  rw [h.read_base]
  exact h.slots v (SymbolTable.mem_of_find?_eq_some hv).1

private theorem run_quiet (h : Agrees m base t) {code : List Instruction} (hq : ∀ i ∈ code, i.Quiet) :
    Agrees (m.run code) base t := by
  have hmem := Machine.memory_run (fun i hi => (hq i hi).1) m
  refine ⟨?_, fun v hv => ?_, fun a ha => ?_⟩
  · rw [Machine.read_run_of_ne (fun i hi => (hq i hi).2), h.read_base]
  · rw [hmem, h.slots v hv]
  · rw [hmem, h.rest a ha]

/-- A new variable finds its slot zero. -/
theorem declare (h : Agrees m base t) (hw : t.WellFormed) {t' : SymbolTable} {name : Text}
    (hd : t.declare name = .ok t') (hsize : t'.size < 2 ^ 60 - 1) : Agrees m base t' := by
  rcases SymbolTable.declare_cases hd with ⟨rfl, -⟩ | ⟨rfl, -, -⟩
  · exact h
  · rw [SymbolTable.size_add] at hsize
    refine ⟨h.read_base, fun v hv => ?_, fun a ha => h.rest a fun v hv => ha v (List.mem_append_left _ hv)⟩
    rcases List.mem_append.1 hv with hv | hv
    · exact h.slots v hv
    · rw [List.mem_singleton.1 hv]
      refine h.rest _ fun w hw' e => ?_
      exact hw.nextOffset_ne (by omega) hw' ((Int64.add_right_inj base).1 e)

/-- Storing a value in the slot of a variable and recording it go together. -/
theorem store (h : Agrees m base t) (hw : t.WellFormed) (hsize : t.size < 2 ^ 60 - 1) {name : Text} {v : Variable}
    (hv : t.find? name = some v) :
    Agrees (m.step (.sd .result name v.offset)) base (t.assign name (m.read .result)) := by
  obtain ⟨hmem, hname⟩ := SymbolTable.mem_of_find?_eq_some hv
  have hstep : ∀ a, (m.step (.sd .result name v.offset)).memory a =
      if a = base + v.offset then m.read .result else m.memory a := by
    intro a
    rw [← h.read_base]
    rfl
  refine ⟨h.read_base, fun w' hw' => ?_, fun a ha => ?_⟩
  · obtain ⟨w, hwm, rfl⟩ := List.mem_map.1 hw'
    rw [hstep]
    by_cases hn : w.name = name
    · have : w = v := hw.eq_of_name_eq hwm hmem (hn.trans hname.symm)
      rw [if_pos hn, this]
      exact if_pos rfl
    · have hne : base + w.offset ≠ base + v.offset := by
        intro e
        have := hw.eq_of_offset_eq hsize hwm hmem ((Int64.add_right_inj base).1 e)
        exact hn (this ▸ hname)
      rw [if_neg hn, if_neg hne]
      exact h.slots w hwm
  · have hslot : ∀ w ∈ t.entries, a ≠ base + w.offset := by
      intro w hwm
      have := ha _ (List.mem_map_of_mem hwm)
      split at this <;> exact this
    rw [hstep, if_neg (hslot v hmem)]
    exact h.rest a hslot

end Agrees

/-- The code that stores an operand is quiet up to its last instruction, which stores the operand's value. -/
theorem storeCode_eq (o : Operand) (name : Text) (offset : Int64) :
    ∃ copy, o.storeCode name offset = copy ++ [.sd .result name offset] ∧ (∀ i ∈ copy, i.Quiet) ∧
      ∀ m : Machine, m.read o.register = o.value → (m.run copy).read .result = o.value := by
  by_cases hr : o.register = .result
  · refine ⟨[], by simp [Operand.storeCode, hr], by simp, fun m hm => ?_⟩
    rw [← hm, hr]
    rfl
  · refine ⟨[.mv .result o.register], by simp [Operand.storeCode, hr], fun i hi => ?_, fun m hm => ?_⟩
    · rw [List.mem_singleton.1 hi]
      exact ⟨rfl, show some Register.result ≠ some Register.base by decide⟩
    · show (m.write .result (m.read o.register + m.read .zero)).read .result = _
      rw [Machine.read_write_self _ (by decide), Machine.read_zero, Int64.add_zero, hm]

namespace Compilation

private theorem agrees_process {c : Compilation} {s : Text} {m : Machine} {base : Int64} (hw : c.symbols.WellFormed)
    (h : Agrees (m.run c.code.toList) base c.symbols)
    (hshort : ∀ tokens, Statement.lowered c.options c.symbols s = some tokens → tokens.length ≤ 28)
    (hsize : (c.process s).symbols.size < 2 ^ 60 - 1) :
    Agrees (m.run (c.process s).code.toList) base (c.process s).symbols := by
  obtain ⟨hd, hcases⟩ := Effect.cases c.options c.symbols s (c.effect s) rfl
  have hsize' : (c.effect s).declared.size < 2 ^ 60 - 1 := by
    rw [(c.size_declared_le_process s).2]
    exact hsize
  have hw' := wellFormed_declared hw s
  have h' : Agrees (m.run c.code.toList) base (c.effect s).declared := by
    rcases hd with hd | ⟨name, hd⟩
    · rw [hd]; exact h
    · exact h.declare hw hd hsize'
  rw [code_process, symbols_process, Machine.run_append]
  generalize c.effect s = f at *
  generalize m.run c.code.toList = m' at *
  have htable := f.table_cases c.options.limits.instructions c.room
  rcases hcases with ⟨hcode, hres⟩ | ⟨tokens, ht, ⟨hcode, hres⟩ | ⟨o, name, v, hp, hv, hcode, hres⟩⟩
  · have : f.table c.options.limits.instructions c.room = f.declared := htable.elim id fun ht => hres _ ht.2
    rw [this, hcode, List.take_nil]
    exact h'
  · have : f.table c.options.limits.instructions c.room = f.declared := htable.elim id fun ht => hres _ ht.2
    rw [this, hcode]
    have hlen : (1 : UInt32).toNat + tokens.length ≤ 29 := Nat.add_le_add_left (hshort tokens ht) 1
    exact h'.run_quiet fun i hi => quiet_of_plan hlen (List.mem_of_mem_take hi)
  · have hlen : (1 : UInt32).toNat + tokens.length ≤ 29 := Nat.add_le_add_left (hshort tokens ht) 1
    obtain ⟨copy, hstore, hcopy, hvalue⟩ := storeCode_eq o name v.offset
    rw [hstore, ← List.append_assoc] at hcode
    have hquiet : ∀ i ∈ (plan f.declared 1 tokens []).code ++ copy, i.Quiet := by
      intro i hi
      rcases List.mem_append.1 hi with hi | hi
      · exact quiet_of_plan hlen hi
      · exact hcopy i hi
    by_cases hfit : f.code.length ≤ c.room
    · have hread : (m'.run ((plan f.declared 1 tokens []).code ++ copy)).read .result = o.value := by
        rw [Machine.run_append]
        exact hvalue _ (read_run_plan (by decide) hlen h'.loads (fun o ho => by cases ho) hp)
      have htab : f.table c.options.limits.instructions c.room = f.declared.assign name o.value := by
        simp [Effect.table, Effect.outcome, hfit, hres]
      rw [htab, List.take_of_length_le hfit, hcode, Machine.run_append, ← hread]
      exact (h'.run_quiet hquiet).store hw' hsize' hv
    · -- The statement was cut before its last instruction, the only one that stores.
      have htab : f.table c.options.limits.instructions c.room = f.declared := by
        simp [Effect.table, Effect.outcome, hfit]
      rw [hcode, List.length_append, List.length_singleton] at hfit
      rw [htab, hcode, List.take_append_of_le_length (by omega)]
      exact h'.run_quiet fun i hi => hquiet i (List.mem_of_mem_take hi)

theorem agrees_ofProgram {options : Options} {program : Text} {m : Machine} (hzero : ∀ a, m.memory a = 0)
    (hshort : ∀ tokens ∈ expressions options program, tokens.length ≤ 28)
    (hsize : (ofProgram options program).symbols.size < 2 ^ 60 - 1) :
    Agrees (m.run (ofProgram options program).code.toList) (m.read .base) (ofProgram options program).symbols := by
  have hopening : (opening options program).symbols.WellFormed ∧
      Agrees (m.run (opening options program).code.toList) (m.read .base) (opening options program).symbols := by
    rw [symbols_opening, code_opening]
    exact ⟨SymbolTable.wellFormed_empty _, rfl, fun v hv => absurd hv List.not_mem_nil, fun a _ => hzero a⟩
  rw [ofProgram_eq] at hsize ⊢
  refine (processAll_induction (P := fun c => c.symbols.WellFormed ∧
    Agrees (m.run c.code.toList) (m.read .base) c.symbols) ?_ hopening hshort hsize).2
  intro c s h hlowered hsize'
  exact ⟨wellFormed_process h.1 s, agrees_process h.1 h.2 hlowered hsize'⟩

/-- Executing the code of a program, from a memory of zeros and any registers, leaves in the slot of every variable
the value that compilation has recorded, whether or not statements of the program failed.  No expression that is
lowered may have more than 28 tokens, so that the base register keeps its value, and the offsets of the variables
must fit in 64 bits. -/
theorem memory_run_ofProgram (options : Options) (program : Text) (m : Machine) (hzero : ∀ a, m.memory a = 0)
    (hshort : ∀ tokens ∈ expressions options program, tokens.length ≤ 28)
    (hsize : (ofProgram options program).symbols.size < 2 ^ 60 - 1) :
    ∀ v ∈ (ofProgram options program).symbols.entries,
      (m.run (ofProgram options program).code.toList).memory (m.read .base + v.offset) = v.value :=
  (agrees_ofProgram hzero hshort hsize).slots

/-- A program with a statement that fails and a variable that is declared twice. -/
theorem memory_run_ofProgram_redeclared :
    let program := "int a = 2; int b = a + z; int a = a * (3 + a);".toList
    let m : Machine := { registers := fun _ => 4096, lo := 7, memory := fun _ => 0 }
    (ofProgram {} program).symbols.entries.map (fun v => (v.offset, v.value)) = [(8, 10), (16, 0)] ∧
      ∀ v ∈ (ofProgram {} program).symbols.entries,
        (m.run (ofProgram {} program).code.toList).memory (m.read .base + v.offset) = v.value :=
  ⟨by decide +kernel, memory_run_ofProgram _ _ _ (fun _ => rfl) (by decide +kernel) (by decide +kernel)⟩

end Compilation

end ArithMips
