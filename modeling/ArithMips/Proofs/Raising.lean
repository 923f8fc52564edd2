import ArithMips.Proofs.Contribution

/-!
# Larger limits

Each limit is checked where it is met: the length of a name and the number of tokens by a scan, the length of a name
also where a declaration is read, the number of variables by the table and the number of instructions by the emitter.
A check that passes under some limits passes under larger ones, and nothing else depends on them.  So a statement that
exceeds no limit does the same under larger limits, in a table that differs in its capacity only
(`Effect.ofStatement_withLimits`), and a program that exceeds none has the same code, variables and diagnostics
(`Compilation.ofProgram_withLimits`).
-/

namespace ArithMips

open Mips (Instruction)

/-- Limits of which none is larger than in some others. -/
structure Limits.Le (limits limits' : Limits) : Prop where
  tokens : limits.tokens ≤ limits'.tokens
  symbols : limits.symbols ≤ limits'.symbols
  instructions : limits.instructions ≤ limits'.instructions
  identifierLength : limits.identifierLength ≤ limits'.identifierLength

/-- The same options with other limits. -/
def Options.withLimits (limits : Limits) (options : Options) : Options := { options with limits }

/-! ### Reading and analysing -/

private theorem Statement.parseDeclaration_mono {limits limits' : Limits}
    (hname : limits.identifierLength ≤ limits'.identifierLength) {s : Text}
    (h : ∀ e, parseDeclaration limits s = .error e → e.isExcess = false) :
    parseDeclaration limits' s = parseDeclaration limits s := by
  rw [parseDeclaration] at h
  rw [parseDeclaration, parseDeclaration]
  rcases hvalue : s.dropWhile (· ≠ '=') with _ | ⟨_, value⟩
  · rfl
  · rw [hvalue] at h
    dsimp only at h ⊢
    generalize (s.takeWhile (· ≠ '=')).takeWhile (!Text.isSpace ·) = name at h ⊢
    by_cases hstart : (!startsName name) = true
    · rw [if_pos hstart, if_pos hstart]
    · rw [if_neg hstart] at h
      rw [if_neg hstart, if_neg hstart]
      by_cases hlong : limits.identifierLength < name.length
      · rw [if_pos hlong] at h
        cases h _ rfl
      · rw [if_neg hlong, if_neg (by omega)]

private theorem Statement.parse_mono {limits limits' : Limits}
    (hname : limits.identifierLength ≤ limits'.identifierLength)
    {s : Text} (h : ∀ e, parse limits s = .error e → e.isExcess = false) : parse limits' s = parse limits s := by
  rw [parse] at h
  rw [parse, parse]
  by_cases hempty : s.trim = []
  · rw [if_pos hempty, if_pos hempty]
  · rw [if_neg hempty] at h
    rw [if_neg hempty, if_neg hempty]
    rcases hkeyword : afterKeyword? s.trim with _ | rest
    · rfl
    · rw [hkeyword] at h
      exact parseDeclaration_mono hname h

private theorem Text.analyse_mono {options : Options} {limits : Limits} (hle : options.limits.Le limits) {s : Text}
    (h : ∀ e, (s.analyse options).result = .error e → e.isExcess = false) :
    s.analyse (options.withLimits limits) = s.analyse options := by
  have hscan : s.scan limits = s.scan options.limits := by
    apply Scan.ofLexemes_mono hle.identifierLength hle.tokens
    intro e he
    apply h e
    have hresult : (s.scan options.limits).result = .error e := he
    rw [analyse, hresult]
  have hscan' : s.scan (options.withLimits limits).limits = s.scan options.limits := hscan
  rw [analyse, hscan']
  rfl

/-! ### Tables of another capacity -/

namespace SymbolTable

/-- The same table with another capacity. -/
def withCapacity (n : Nat) (t : SymbolTable) : SymbolTable := { t with capacity := n }

@[simp] theorem find?_withCapacity (n : Nat) (t : SymbolTable) (x : Text) :
    (t.withCapacity n).find? x = t.find? x := rfl

private theorem declare_withCapacity {n : Nat} {t t' : SymbolTable} {x : Text} (hn : t.capacity ≤ n)
    (h : t.declare x = .ok t') : (t.withCapacity n).declare x = .ok (t'.withCapacity n) := by
  rcases declare_cases h with ⟨rfl, hfound⟩ | ⟨rfl, hnew, hroom⟩
  · rw [declare, find?_withCapacity, if_pos hfound]
  · have hfit : ¬(t.withCapacity n).capacity ≤ (t.withCapacity n).size := by
      show ¬n ≤ t.size
      omega
    rw [declare, find?_withCapacity, hnew, if_neg (by simp), if_neg hfit]
    rfl

private theorem isExcess_of_declare {t : SymbolTable} {x : Text} {e : Error} (h : t.declare x = .error e) :
    e.isExcess = true := by
  cases raised_of_declare h
  rfl

end SymbolTable

private theorem plan_withCapacity (n : Nat) (t : SymbolTable) (r : UInt32) (tokens : List Token)
    (stack : List Operand) :
    plan (t.withCapacity n) r tokens stack = plan t r tokens stack := by
  induction tokens generalizing r stack with
  | nil => rcases stack with _ | ⟨o, _ | ⟨o', stack⟩⟩ <;> rfl
  | cons token rest ih =>
    have htoken : lowerToken (t.withCapacity n) ⟨r⟩ token stack = lowerToken t ⟨r⟩ token stack := by
      cases token <;> rfl
    rw [plan, plan, htoken]
    simp only [ih]

/-! ### Statements -/

namespace Effect

/-- The same effect on tables of another capacity. -/
def withCapacity (n : Nat) (f : Effect) : Effect :=
  { f with
    declared := f.declared.withCapacity n
    result := f.result.map (SymbolTable.withCapacity n) }

private theorem ofExpression_withLimits {options : Options} {limits : Limits} (hle : options.limits.Le limits) (n : Nat)
    {t : SymbolTable} {s : Text} {use use' : Operand → List Instruction × Except Error SymbolTable}
    (huse : ∀ o, use' o = ((use o).1, (use o).2.map (SymbolTable.withCapacity n)))
    (h : ∀ e, (ofExpression options t s use).result = .error e → e.isExcess = false) :
    ofExpression (options.withLimits limits) (t.withCapacity n) s use' =
      (ofExpression options t s use).withCapacity n := by
  have hanalyse : s.analyse (options.withLimits limits) = s.analyse options := by
    apply Text.analyse_mono hle
    intro e he
    apply h e
    rw [ofExpression, he]
  rw [ofExpression, ofExpression, hanalyse]
  rcases (s.analyse options).result with e | tokens
  · rfl
  · dsimp only
    rw [plan_withCapacity]
    rcases (plan t 1 tokens []).result with e | o
    · rfl
    · dsimp only
      rw [huse o]
      rfl

/-- A statement that exceeds no limit does the same under larger ones. -/
theorem ofStatement_withLimits {options : Options} {limits : Limits} (hle : options.limits.Le limits) {n : Nat}
    {t : SymbolTable} (hn : t.capacity ≤ n) {s : Text}
    (h : ∀ e, (ofStatement options t s).result = .error e → e.isExcess = false) :
    ofStatement (options.withLimits limits) (t.withCapacity n) s = (ofStatement options t s).withCapacity n := by
  have hparse : Statement.parse (options.withLimits limits).limits s = Statement.parse options.limits s := by
    apply Statement.parse_mono hle.identifierLength
    intro e he
    apply h e
    rw [ofStatement, he]
  rw [ofStatement] at h
  rw [ofStatement, ofStatement, hparse]
  generalize Statement.parse options.limits s = parsed at h
  rcases parsed with e | (⟨x, e⟩ | e | _)
  · rfl
  · dsimp only at h ⊢
    rcases hd : t.declare x with err | t'
    · rw [hd] at h
      have hexcess := h err rfl
      rw [SymbolTable.isExcess_of_declare hd] at hexcess
      cases hexcess
    · rw [hd] at h
      rw [SymbolTable.declare_withCapacity hn hd]
      dsimp only at h ⊢
      apply ofExpression_withLimits hle n _ h
      intro o
      rw [storing, storing, SymbolTable.find?_withCapacity]
      rcases t'.find? x with _ | v <;> rfl
  · exact ofExpression_withLimits hle n (fun _ => rfl) h
  · rfl

end Effect

namespace Compilation

theorem capacity_process (c : Compilation) (s : Text) : (c.process s).symbols.capacity = c.symbols.capacity := by
  rw [symbols_process]
  refine (Effect.alike_table ..).capacity.trans ?_
  rcases Effect.declared_ofStatement c.options c.symbols s (c.effect s) rfl with h | ⟨x, e, -, h⟩
  · exact congrArg SymbolTable.capacity h
  · exact SymbolTable.capacity_declare h

/-- A statement that is not said to exceed a limit has room for its code, and no other limit ends it. -/
private theorem isExcess_of_contribution {c : Compilation} {s : Text}
    (h : ∀ d ∈ (c.contribution s).diagnostics, d.error.isExcess = false) :
    (c.effect s).code.length ≤ c.room ∧ ∀ e, (c.effect s).result = .error e → e.isExcess = false := by
  have hout : ∀ e, (c.effect s).outcome c.options.limits.instructions c.room = .error e → e.isExcess = false := by
    intro e he
    apply h { error := e, statement := some s.trim }
    rw [diagnostics_contribution]
    exact List.mem_map.2 ⟨e, Effect.mem_errors.2 (.inr he), rfl⟩
  have hfit : (c.effect s).code.length ≤ c.room := by
    by_contra hcut
    cases hout _ (Effect.outcome_eq_error.2 (.inr ⟨Nat.lt_of_not_le hcut, rfl⟩))
  exact ⟨hfit, fun e he => hout e (Effect.outcome_eq_error.2 (.inl ⟨hfit, he⟩))⟩

/-- The state of a run beside that of the same run under larger limits. -/
structure Relaxed (limits : Limits) (c d : Compilation) : Prop where
  limits_le : c.options.limits.Le limits
  options : d.options = c.options.withLimits limits
  capacity_le : c.symbols.capacity ≤ limits.symbols
  symbols : d.symbols = c.symbols.withCapacity limits.symbols
  code : d.code = c.code
  diagnostics : d.diagnostics = c.diagnostics

namespace Relaxed

variable {limits : Limits} {c d : Compilation}

private theorem room_le (h : Relaxed limits c d) : c.room ≤ d.room := by
  have hc : c.room = c.options.limits.instructions - c.code.size := rfl
  have hd : d.room = d.options.limits.instructions - d.code.size := rfl
  rw [h.options, h.code] at hd
  have hlimit := h.limits_le.instructions
  have hlimit' : (c.options.withLimits limits).limits.instructions = limits.instructions := rfl
  omega

theorem process (h : Relaxed limits c d) {s : Text}
    (hs : ∀ x ∈ (c.contribution s).diagnostics, x.error.isExcess = false) :
    Relaxed limits (c.process s) (d.process s) := by
  obtain ⟨hfit, hexcess⟩ := isExcess_of_contribution hs
  have heffect : d.effect s = (c.effect s).withCapacity limits.symbols := by
    rw [effect, h.options, h.symbols]
    exact Effect.ofStatement_withLimits h.limits_le h.capacity_le hexcess
  have hcode : (d.effect s).code = (c.effect s).code := by rw [heffect]; rfl
  have hfit' : (d.effect s).code.length ≤ d.room := by
    rw [hcode]
    exact Nat.le_trans hfit h.room_le
  have hout : (c.effect s).outcome c.options.limits.instructions c.room = (c.effect s).result := if_pos hfit
  have hout' : (d.effect s).outcome d.options.limits.instructions d.room =
      (c.effect s).result.map (SymbolTable.withCapacity limits.symbols) := by
    rw [Effect.outcome, if_pos hfit', heffect]
    rfl
  constructor
  · rw [options_process]
    exact h.limits_le
  · rw [options_process, options_process, h.options]
  · rw [capacity_process]
    exact h.capacity_le
  · rw [symbols_process, symbols_process, Effect.table, Effect.table, hout, hout']
    rcases (c.effect s).result with e | t
    · show (d.effect s).declared = _
      rw [heffect]
      rfl
    · rfl
  · rw [← Array.toList_inj, code_process, code_process, List.take_of_length_le hfit, List.take_of_length_le hfit',
      hcode, h.code]
  · rw [← Array.toList_inj, diagnostics_process, diagnostics_process, Effect.errors, Effect.errors, hout, hout',
      h.diagnostics, heffect]
    rcases (c.effect s).result with e | t <;> rfl

theorem processAll (h : Relaxed limits c d) {statements : List Text}
    (hs : ∀ p ∈ c.contributions statements, ∀ x ∈ p.diagnostics, x.error.isExcess = false) :
    Relaxed limits (c.processAll statements) (d.processAll statements) := by
  induction statements generalizing c d with
  | nil => exact h
  | cons s rest ih =>
    apply ih (h.process (hs _ List.mem_cons_self))
    intro p hp
    exact hs p (List.mem_cons_of_mem _ hp)

end Relaxed

private theorem relaxed_opening {options : Options} {limits : Limits} (hle : options.limits.Le limits)
    (program : Text) :
    Relaxed limits (opening options program) (opening (options.withLimits limits) program) where
  limits_le := by rwa [options_opening]
  options := by rw [options_opening, options_opening]
  capacity_le := by
    rw [symbols_opening]
    exact hle.symbols
  symbols := by
    rw [symbols_opening, symbols_opening]
    rfl
  code := by rw [← Array.toList_inj, code_opening, code_opening]
  diagnostics := by rw [← Array.toList_inj, diagnostics_opening, diagnostics_opening]

/-- A program that is not said to exceed a limit has the same code, variables and diagnostics under larger limits. -/
theorem ofProgram_withLimits {options : Options} {limits : Limits} (hle : options.limits.Le limits) {program : Text}
    (h : ∀ d ∈ (ofProgram options program).diagnostics.toList, d.error.isExcess = false) :
    let c := ofProgram options program
    let d := ofProgram (options.withLimits limits) program
    d.code = c.code ∧ d.symbols.entries = c.symbols.entries ∧ d.diagnostics = c.diagnostics := by
  intro c d
  have hcontributions : ∀ p ∈ (opening options program).contributions program.normalizeSpace.statements,
      ∀ x ∈ p.diagnostics, x.error.isExcess = false := by
    intro p hp x hx
    apply h x
    rw [ofProgram_eq, (extends_processAll ..).diagnostics]
    exact List.mem_append_right _ (List.mem_flatMap.2 ⟨p, hp, hx⟩)
  have hrelaxed : Relaxed limits c d := (relaxed_opening hle program).processAll hcontributions
  refine ⟨hrelaxed.code, ?_, hrelaxed.diagnostics⟩
  rw [hrelaxed.symbols]
  rfl

/-- A program with errors of other kinds that just fits its limits, parentheses checked. -/
theorem ofProgram_withLimits_default :
    let options : Options :=
      { limits := { tokens := 7, symbols := 2, instructions := 12, identifierLength := 2 }, strictParens := true }
    let program := "int a = 2; int bc = (a + 3) * $ a; a +; (a; q".toList
    let c := ofProgram options program
    let d := ofProgram (options.withLimits {}) program
    (c.code.size = 12 ∧ c.symbols.size = 2 ∧ c.diagnostics.size = 5) ∧
      d.code = c.code ∧ d.symbols.entries = c.symbols.entries ∧ d.diagnostics = c.diagnostics := by
  intro options program c d
  have hle : options.limits.Le {} := ⟨by decide, by decide, by decide, by decide⟩
  have h : ∀ d ∈ c.diagnostics.toList, d.error.isExcess = false := by decide +kernel
  exact ⟨by decide +kernel, ofProgram_withLimits hle h⟩

end Compilation

end ArithMips
