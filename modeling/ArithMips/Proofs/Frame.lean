import ArithMips.Proofs.Execution

/-!
# What a statement leaves alone

A statement works at the end of everything.  It appends code and diagnostics, a declaration may put one variable
behind the others, and the only value that it may change is that of the variable it declares (`Frame`).  It changes
the value together with the store of it, which is its last instruction, and only if it ends well: a statement that
fails at any point has stored nothing and assigned nothing (`Compilation.process_cases`).
-/

namespace ArithMips

open Mips (Instruction Register)

/-! ### Stores in the code of a statement -/

private theorem isStore_of_plan {symbols : SymbolTable} {r : UInt32} {tokens : List Token} {stack : List Operand}
    {i : Instruction} (hi : i ∈ (plan symbols r tokens stack).code) : i.isStore = false := by
  induction tokens generalizing r stack with
  | nil => rcases stack with _ | ⟨o, _ | ⟨o', stack⟩⟩ <;> cases hi
  | cons t rest ih =>
    rcases hl : lowerToken symbols ⟨r⟩ t stack with err | l
    · rw [plan_cons_of_error hl] at hi
      cases hi
    · rw [plan_cons_of_ok hl, Plan.code_after] at hi
      rcases List.mem_append.1 hi with hi | hi
      · exact (target?_of_lowerToken hl hi).1
      · exact ih hi

/-- The code of a declaration stores with its last instruction and with no other one. -/
private theorem exists_append_sd (symbols : SymbolTable) (tokens : List Token) (o : Operand) (x : Text)
    (offset : Int64) :
    ∃ before, (plan symbols 1 tokens []).code ++ o.storeCode x offset = before ++ [.sd .result x offset] ∧
      ∀ i ∈ before, i.isStore = false := by
  obtain ⟨copy, hstore, hcopy, -⟩ := storeCode_eq o x offset
  refine ⟨(plan symbols 1 tokens []).code ++ copy, by rw [hstore, List.append_assoc], fun i hi => ?_⟩
  rcases List.mem_append.1 hi with hi | hi
  · exact isStore_of_plan hi
  · exact (hcopy i hi).1

/-- A statement that fails, or that has no room for all its code, writes no store. -/
theorem Effect.isStore_of_outcome_eq_error {options : Options} {symbols : SymbolTable} {s : Text} {limit room : Nat}
    {err : Error} (h : (ofStatement options symbols s).outcome limit room = .error err) {i : Instruction}
    (hi : i ∈ (ofStatement options symbols s).code.take room) : i.isStore = false := by
  obtain ⟨-, hcases⟩ := cases options symbols s _ rfl
  generalize ofStatement options symbols s = f at *
  rcases hcases with ⟨hcode, -⟩ | ⟨tokens, -, ⟨hcode, -⟩ | ⟨o, x, v, -, -, hcode, hres⟩⟩
  · rw [hcode, List.take_nil] at hi
    cases hi
  · rw [hcode] at hi
    exact isStore_of_plan (List.mem_of_mem_take hi)
  · -- The statement would have ended well, so it was cut, and its last instruction is missing.
    obtain ⟨before, hbefore, hquiet⟩ := exists_append_sd f.declared tokens o x v.offset
    have hcut : ¬f.code.length ≤ room := fun hfit => by
      rw [outcome, if_pos hfit, hres] at h
      cases h
    rw [hcode, hbefore, List.length_append, List.length_singleton] at hcut
    rw [hcode, hbefore, List.take_append_of_le_length (by omega)] at hi
    exact hquiet i (List.mem_of_mem_take hi)

namespace Compilation

/-- Whether a statement is a declaration that ends without an error of its own. -/
def Stores (c : Compilation) (s : Text) : Prop :=
  (∃ x e, Statement.parse c.options.limits s = .ok (.declaration x e)) ∧
    (Compile.statement s (c.enter s.trim)).1 = .ok ()

/-- A statement stores and assigns the value of its expression, or it does neither. -/
theorem process_cases (c : Compilation) (s : Text) :
    (∃ x e v o before, Statement.parse c.options.limits s = .ok (.declaration x e) ∧
        (Compile.statement s (c.enter s.trim)).1 = .ok () ∧ (c.effect s).declared.find? x = some v ∧
        (Compile.expression e { c with symbols := (c.effect s).declared }).1 = .ok o ∧
        (c.effect s).code.take c.room = before ++ [.sd .result x v.offset] ∧ (∀ i ∈ before, i.isStore = false) ∧
        (c.process s).symbols = (c.effect s).declared.assign x o.value) ∨
      ¬c.Stores s ∧ (c.process s).symbols = (c.effect s).declared ∧
        ∀ i ∈ (c.effect s).code.take c.room, i.isStore = false := by
  have hends := c.fst_statement s
  have hsymbols := c.symbols_process s
  rcases hout : (c.effect s).outcome c.options.limits.instructions c.room with err | u
  · rw [hout] at hends
    refine .inr ⟨?_, ?_, fun i hi => Effect.isStore_of_outcome_eq_error hout hi⟩
    · rintro ⟨-, hok⟩
      rw [hends] at hok
      cases hok
    · rw [hsymbols, Effect.table, hout]
  · rw [hout] at hends
    rw [Effect.table, hout] at hsymbols
    obtain ⟨hfit, hresult⟩ := Effect.outcome_eq_ok.1 hout
    rw [List.take_of_length_le hfit]
    -- A statement that is no declaration leaves the table as it is.
    have hother : (∀ x e, Statement.parse c.options.limits s ≠ .ok (.declaration x e)) →
        ¬c.Stores s ∧ (c.effect s).declared = c.symbols := by
      intro hne
      refine ⟨fun hstores => ?_, ?_⟩
      · obtain ⟨⟨x, e, hparse⟩, -⟩ := hstores
        exact hne x e hparse
      · rcases Effect.declared_ofStatement c.options c.symbols s (c.effect s) rfl with hd | ⟨x, e, hparse, -⟩
        · exact hd
        · exact absurd hparse (hne x e)
    rcases Effect.ofStatement_eq_ok (c.effect s) rfl hresult with
      ⟨hparse, hcode, hu⟩ | ⟨e, tokens, o, hparse, -, -, hcode, hu⟩ |
      ⟨x, e, tokens, o, v, hparse, -, ha, hp, hv, hcode, hu⟩
    · obtain ⟨hstores, hdeclared⟩ := hother fun x e => by simp [hparse]
      refine .inr ⟨hstores, by rw [hsymbols, hu, hdeclared], fun i hi => ?_⟩
      rw [hcode] at hi
      cases hi
    · obtain ⟨hstores, hdeclared⟩ := hother fun x e => by simp [hparse]
      refine .inr ⟨hstores, by rw [hsymbols, hu, hdeclared], fun i hi => ?_⟩
      rw [hcode] at hi
      exact isStore_of_plan hi
    · obtain ⟨before, hbefore, hquiet⟩ := exists_append_sd (c.effect s).declared tokens o x v.offset
      refine .inl ⟨x, e, v, o, before, hparse, hends, hv, ?_, hcode.trans hbefore, hquiet, hsymbols.trans hu⟩
      have hroom : (plan (c.effect s).declared 1 tokens []).code.length ≤ c.room := by
        rw [hcode, List.length_append] at hfit
        omega
      exact Compile.fst_expression_eq_ok.2 ⟨tokens, ha, hroom, hp⟩

end Compilation

/-! ### The frame of a statement -/

/-- What a statement may change.  It writes the code `added`, and its expression is compiled in the table `t`, in
which its variable is declared. -/
structure Frame (c : Compilation) (s : Text) (t : SymbolTable) (added : List Instruction) (d : Compilation) : Prop where
  code : d.code.toList = c.code.toList ++ added
  diagnostics : c.diagnostics.toList <+: d.diagnostics.toList
  current : d.current = none
  /-- No variable is declared, or the one of the declaration is put behind the others. -/
  declared : t.entries = c.symbols.entries ∨
    ∃ (x e : Text) (offset : Int64), Statement.parse c.options.limits s = .ok (.declaration x e) ∧
      offset.toInt = 8 * (c.symbols.size + 1) ∧
      t.entries = c.symbols.entries ++ [{ name := x, value := 0, offset, declared := true }]
  /-- All variables stay where they are, and as they are but for their values. -/
  kept : d.symbols.entries.map (fun v => (v.name, v.offset, v.declared)) =
    t.entries.map fun v => (v.name, v.offset, v.declared)
  countP_le : added.countP Instruction.isStore ≤ 1
  countP_eq_one : added.countP Instruction.isStore = 1 ↔ c.Stores s
  /-- A declaration that ends well stores the result register, at the end of its code, and assigns. -/
  stored : c.Stores s → ∃ x e v o, Statement.parse c.options.limits s = .ok (.declaration x e) ∧
    t.find? x = some v ∧ (Compile.expression e { c with symbols := t }).1 = .ok o ∧
    added.getLast? = some (.sd .result x v.offset) ∧ d.symbols.find? x = some { v with value := o.value } ∧
    d.symbols = t.assign x o.value
  /-- Nothing else stores or assigns. -/
  not_stored : ¬c.Stores s → (∀ i ∈ added, i.isStore = false) ∧ d.symbols = t

namespace Compilation

private theorem entries_declared {c : Compilation} (h : c.symbols.WellFormed) (hsize : c.symbols.size < 2 ^ 60 - 1)
    (s : Text) :
    (c.effect s).declared.entries = c.symbols.entries ∨
      ∃ (x e : Text) (offset : Int64), Statement.parse c.options.limits s = .ok (.declaration x e) ∧
        offset.toInt = 8 * (c.symbols.size + 1) ∧
        (c.effect s).declared.entries =
          c.symbols.entries ++ [{ name := x, value := 0, offset, declared := true }] := by
  rcases Effect.declared_ofStatement c.options c.symbols s (c.effect s) rfl with hd | ⟨x, e, hparse, hd⟩
  · exact .inl (congrArg _ hd)
  · rcases SymbolTable.declare_cases hd with ⟨hd, -⟩ | ⟨hd, -⟩
    · exact .inl (congrArg _ hd)
    · refine .inr ⟨x, e, c.symbols.nextOffset, hparse, ?_, congrArg _ hd⟩
      rw [h.nextOffset, SymbolTable.toInt_offsetAt hsize]

private theorem frame_of_wellFormed {c : Compilation} (h : c.symbols.WellFormed) (hsize : c.symbols.size < 2 ^ 60 - 1)
    (s : Text) : Frame c s (c.effect s).declared ((c.effect s).code.take c.room) (c.process s) := by
  have hcode := c.code_process s
  have hdiagnostics : c.diagnostics.toList <+: (c.process s).diagnostics.toList := by
    rw [diagnostics_process]
    exact List.prefix_append _ _
  have hdeclared := entries_declared h hsize s
  rcases c.process_cases s with
    ⟨x, e, v, o, before, hparse, hok, hv, ho, hbefore, hquiet, hsymbols⟩ | ⟨hnot, hsymbols, hquiet⟩
  · have hstores : c.Stores s := ⟨⟨x, e, hparse⟩, hok⟩
    have hcount : ((c.effect s).code.take c.room).countP Instruction.isStore = 1 := by
      rw [hbefore, List.countP_append, List.countP_eq_zero.2 fun i hi => by simp [hquiet i hi]]
      rfl
    refine ⟨hcode, hdiagnostics, current_process c s, hdeclared, ?_, Nat.le_of_eq hcount, ?_, fun _ => ?_, ?_⟩
    · rw [hsymbols]
      exact SymbolTable.map_entries_assign (fun _ _ => rfl) _ x o.value
    · exact ⟨fun _ => hstores, fun _ => hcount⟩
    · refine ⟨x, e, v, o, hparse, hv, ho, by rw [hbefore]; simp, ?_, hsymbols⟩
      rw [hsymbols]
      exact SymbolTable.find?_assign_self hv o.value
    · exact fun hnot => absurd hstores hnot
  · have hcount : ((c.effect s).code.take c.room).countP Instruction.isStore = 0 :=
      List.countP_eq_zero.2 fun i hi => by simp [hquiet i hi]
    refine ⟨hcode, hdiagnostics, current_process c s, hdeclared, ?_, by omega, ?_, fun hstores => ?_, fun _ => ?_⟩
    · rw [hsymbols]
    · exact ⟨fun hone => by omega, fun hstores => absurd hstores hnot⟩
    · exact absurd hstores hnot
    · exact ⟨hquiet, hsymbols⟩

/-- Every statement of every run keeps to its frame. -/
theorem frame_process (options : Options) (statements : List Text)
    (hsize : ((start options).processAll statements).symbols.size < 2 ^ 60 - 1) (s : Text) :
    ∃ t added, Frame ((start options).processAll statements) s t added
      (((start options).processAll statements).process s) :=
  ⟨_, _, frame_of_wellFormed (wellFormed_processAll (SymbolTable.wellFormed_empty _) statements) hsize s⟩

/-- A declaration of a known variable, behind a statement that fails. -/
theorem frame_process_redeclared :
    let c := (start {}).processAll ["int a = 2".toList, "int b = a + z".toList]
    c.symbols.size = 2 ∧ ∃ t added, Frame c "int a = a * 7".toList t added (c.process "int a = a * 7".toList) :=
  ⟨by decide +kernel, frame_process _ _ (by decide +kernel) _⟩

end Compilation

end ArithMips
