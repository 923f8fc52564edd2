import ArithMips.Lowering

/-!
# Lowering without a limit

Lowering writes code as long as there is room.  What it would write with room for everything is a `Plan`: the code
and the operand or the error at the end, a function of the table, the first register and the tokens alone
(`plan`).  A limit on the code only cuts a plan:

* the code that is written is the beginning of the plan's code, as much of it as there is room for
  (`lowerOn_spec`, second part);
* the result is the plan's own if all its code was written, and an exhausted limit otherwise (first part).
-/

namespace ArithMips

open Mips (Instruction Register)

namespace Emitter

/-- The number of instructions that there is room for. -/
def room (limit : Nat) (e : Emitter) : Nat := limit - e.code.size

/-- Writing several instructions writes as many of them as there is room for. -/
theorem emitAll_apply (limit : Nat) (code : List Instruction) (e : Emitter) :
    emitAll limit code e =
      (if code.length ≤ e.room limit then .ok () else .error (.tooMany .instructions limit),
        { e with code := e.code ++ code.take (e.room limit) }) := by
  induction code generalizing e with
  | nil => simp [emitAll_nil]
  | cons i rest ih =>
    rw [emitAll_cons]
    by_cases h : limit ≤ e.code.size
    · have hr : e.room limit = 0 := by unfold room; omega
      rw [emit_of_le h, hr]
      simp
    · have hr : e.room limit = ({ e with code := e.code.push i } : Emitter).room limit + 1 := by
        simp only [room, Array.size_push]
        omega
      rw [emit_of_lt (Nat.lt_of_not_le h), hr]
      simp only [ih, List.length_cons, Nat.add_le_add_iff_right, List.take_succ_cons]
      simp

private theorem room_append (limit : Nat) (e : Emitter) (code : List Instruction) (r : UInt32) :
    ({ code := e.code ++ code, nextRegister := r } : Emitter).room limit = e.room limit - code.length := by
  have hs : (e.code ++ code).size = e.code.size + code.length := by
    rw [← Array.length_toList, ← Array.length_toList]
    simp
  simp only [room, hs]
  omega

end Emitter

/-- The ways in which lowering a token succeeds. -/
theorem lowerToken_cases {symbols : SymbolTable} {rd : Register} {t : Token} {stack : List Operand} {l : Lowered}
    (h : lowerToken symbols rd t stack = .ok l) :
    (∃ value, t = .literal value ∧ l = { operand := ⟨rd, value⟩, code := [.li rd value], rest := stack }) ∨
      (∃ name v, t = .name name ∧ symbols.find? name = some v ∧
        l = { operand := ⟨rd, v.value⟩, code := [.ld rd name v.offset], rest := stack }) ∨
      ∃ op right left rest, t = .operator op ∧ stack = right :: left :: rest ∧
        l = { operand := ⟨rd, op.apply left.value right.value⟩
              code := op.code rd left.register right.register
              rest } := by
  unfold lowerToken at h
  split at h
  · exact .inl ⟨_, rfl, (Except.ok.inj h).symm⟩
  · split at h
    · exact .inr (.inl ⟨_, _, rfl, ‹_›, (Except.ok.inj h).symm⟩)
    · cases h
  · exact .inr (.inr ⟨_, _, _, _, rfl, rfl, (Except.ok.inj h).symm⟩)
  · cases h
  · cases h

/-- What lowering writes if there is room for everything, and what it ends with. -/
structure Plan where
  code : List Instruction
  result : Except Error Operand

namespace Plan

def after (code : List Instruction) (p : Plan) : Plan := { p with code := code ++ p.code }

/-- The result of a plan if there is room for a number of instructions only. -/
def outcome (limit room : Nat) (p : Plan) : Except Error Operand :=
  if p.code.length ≤ room then p.result else .error (.tooMany .instructions limit)

@[simp] theorem code_after (code : List Instruction) (p : Plan) : (p.after code).code = code ++ p.code := rfl

@[simp] theorem result_after (code : List Instruction) (p : Plan) : (p.after code).result = p.result := rfl

theorem after_after (code code' : List Instruction) (p : Plan) :
    (p.after code').after code = p.after (code ++ code') := by
  simp [after]

end Plan

/-- The plan for the rest of an expression over a stack of operands. -/
def plan (symbols : SymbolTable) : (register : UInt32) → List Token → List Operand → Plan
  | _, [], [result] => { code := [], result := .ok result }
  | _, [], _ => { code := [], result := .error .malformedExpression }
  | r, t :: rest, stack =>
    match lowerToken symbols ⟨r⟩ t stack with
    | .error e => { code := [], result := .error e }
    | .ok l => (plan symbols (r + 1) rest (l.operand :: l.rest)).after l.code

theorem plan_cons_of_error {symbols : SymbolTable} {r : UInt32} {t : Token} {stack : List Operand} {err : Error}
    (h : lowerToken symbols ⟨r⟩ t stack = .error err) (rest : List Token) :
    plan symbols r (t :: rest) stack = { code := [], result := .error err } := by
  rw [plan, h]

theorem plan_cons_of_ok {symbols : SymbolTable} {r : UInt32} {t : Token} {stack : List Operand} {l : Lowered}
    (h : lowerToken symbols ⟨r⟩ t stack = .ok l) (rest : List Token) :
    plan symbols r (t :: rest) stack = (plan symbols (r + 1) rest (l.operand :: l.rest)).after l.code := by
  rw [plan, h]

/-- A limit cuts the plan of an expression, in its code and in its result. -/
theorem lowerOn_spec (symbols : SymbolTable) (limit : Nat) (tokens : List Token) (stack : List Operand)
    (e : Emitter) :
    (lowerOn symbols limit tokens stack e).1 =
        (plan symbols e.nextRegister tokens stack).outcome limit (e.room limit) ∧
      (lowerOn symbols limit tokens stack e).2.code.toList =
        e.code.toList ++ (plan symbols e.nextRegister tokens stack).code.take (e.room limit) := by
  induction tokens generalizing stack e with
  | nil =>
    have hnil : (plan symbols e.nextRegister [] stack).code = [] := by
      rcases stack with _ | ⟨o, _ | ⟨o', stack⟩⟩ <;> rfl
    refine ⟨?_, ?_⟩
    · rw [Plan.outcome, hnil]
      rcases stack with _ | ⟨o, _ | ⟨o', stack⟩⟩ <;> rfl
    · rw [hnil, List.take_nil, List.append_nil]
      rcases stack with _ | ⟨o, _ | ⟨o', stack⟩⟩ <;> rfl
  | cons t rest ih =>
    rcases h : lowerToken symbols ⟨e.nextRegister⟩ t stack with err | l
    · rw [lowerOn_cons_of_error h, plan_cons_of_error h]
      simp [Plan.outcome]
    · rw [lowerOn_cons_of_ok h, plan_cons_of_ok h, Emitter.emitAll_apply]
      have hroom : ({ e with nextRegister := e.nextRegister + 1 } : Emitter).room limit = e.room limit := rfl
      rw [hroom]
      by_cases hl : l.code.length ≤ e.room limit
      · -- The token's own code fits, and what is left of the room is for the rest.
        rw [if_pos hl]
        obtain ⟨hres, hcode⟩ := ih (l.operand :: l.rest)
          { code := e.code ++ l.code, nextRegister := e.nextRegister + 1 }
        rw [Emitter.room_append] at hres hcode
        simp only [List.take_of_length_le hl, Plan.code_after, List.take_append]
        refine ⟨?_, ?_⟩
        · rw [hres]
          simp only [Plan.outcome, Plan.code_after, Plan.result_after, List.length_append]
          congr 1
          exact propext ⟨fun _ => by omega, fun _ => by omega⟩
        · rw [hcode]
          simp
      · rw [if_neg hl]
        refine ⟨?_, ?_⟩
        · rw [Plan.outcome, if_neg (by simp; omega)]
        · simp only [Plan.code_after]
          rw [List.take_append_of_le_length (by omega)]
          simp

end ArithMips
