import ArithMips.Proofs.Process

/-!
# What does not depend on values

Two symbol tables are alike if they list the same names at the same offsets; the values of their variables may differ
(`SymbolTable.Alike`).  A statement reads values only to compute others.  So under alike tables it skips the same
characters, writes the same code, ends with the same error or with none, and leaves alike tables (`Effect.Alike`,
`Effect.alike_ofStatement`).
-/

namespace ArithMips

open Mips (Instruction Register)

namespace SymbolTable

/-- The names of the variables with their offsets, oldest first. -/
def layout (t : SymbolTable) : List (Text × Int64) := t.entries.map fun v => (v.name, v.offset)

/-- Tables that differ in the values of their variables only. -/
structure Alike (t u : SymbolTable) : Prop where
  layout : t.layout = u.layout
  capacity : t.capacity = u.capacity
  nextOffset : t.nextOffset = u.nextOffset

namespace Alike

theorem refl (t : SymbolTable) : t.Alike t := ⟨rfl, rfl, rfl⟩

theorem symm {t u : SymbolTable} (h : t.Alike u) : u.Alike t := ⟨h.layout.symm, h.capacity.symm, h.nextOffset.symm⟩

theorem trans {t u v : SymbolTable} (h : t.Alike u) (h' : u.Alike v) : t.Alike v :=
  ⟨h.layout.trans h'.layout, h.capacity.trans h'.capacity, h.nextOffset.trans h'.nextOffset⟩

theorem size_eq {t u : SymbolTable} (h : t.Alike u) : t.size = u.size := by
  simpa [SymbolTable.layout, size] using congrArg List.length h.layout

end Alike

/-- In tables built by declarations the next offset follows from the number of variables. -/
theorem WellFormed.alike {t u : SymbolTable} (ht : t.WellFormed) (hu : u.WellFormed) (hlayout : t.layout = u.layout)
    (hcapacity : t.capacity = u.capacity) : t.Alike u := by
  have hsize : t.size = u.size := by simpa [layout, size] using congrArg List.length hlayout
  exact ⟨hlayout, hcapacity, by rw [ht.nextOffset, hu.nextOffset, hsize]⟩

private theorem alike_assign (t : SymbolTable) (x : Text) (value : Int64) : (t.assign x value).Alike t :=
  ⟨map_entries_assign (fun _ _ => rfl) t x value, rfl, rfl⟩

/-- The offset of a variable is read off the layout. -/
private theorem offset_find? (t : SymbolTable) (x : Text) :
    (t.find? x).map Variable.offset = (t.layout.find? fun p => p.1 = x).map Prod.snd := by
  rw [layout, List.find?_map, find?, Option.map_map]
  rfl

namespace Alike

private theorem offset_find? {t u : SymbolTable} (h : t.Alike u) (x : Text) :
    (t.find? x).map Variable.offset = (u.find? x).map Variable.offset := by
  rw [t.offset_find?, u.offset_find?, h.layout]

theorem find?_eq_none {t u : SymbolTable} (h : t.Alike u) {x : Text} (hx : t.find? x = none) : u.find? x = none := by
  have hoffset := h.offset_find? x
  rw [hx] at hoffset
  exact Option.map_eq_none_iff.1 hoffset.symm

private theorem exists_find? {t u : SymbolTable} (h : t.Alike u) {x : Text} {v : Variable} (hx : t.find? x = some v) :
    ∃ w, u.find? x = some w ∧ w.offset = v.offset := by
  have hoffset := h.offset_find? x
  rw [hx] at hoffset
  obtain ⟨w, hw, heq⟩ := Option.map_eq_some_iff.1 hoffset.symm
  exact ⟨w, hw, heq⟩

theorem add {t u : SymbolTable} (h : t.Alike u) (x : Text) : (t.add x).Alike (u.add x) where
  layout := by
    have hlayout := h.layout
    simp only [SymbolTable.layout] at hlayout
    simp [SymbolTable.layout, SymbolTable.add, hlayout, h.nextOffset]
  capacity := h.capacity
  nextOffset := congrArg (· + Variable.slotSize) h.nextOffset

/-- A declaration succeeds under both tables or fails under both. -/
theorem declare {t u : SymbolTable} (h : t.Alike u) (x : Text) :
    (∃ e, t.declare x = .error e ∧ u.declare x = .error e) ∨
      ∃ t' u', t.declare x = .ok t' ∧ u.declare x = .ok u' ∧ t'.Alike u' := by
  simp only [SymbolTable.declare]
  rcases hx : t.find? x with _ | v
  · rw [h.find?_eq_none hx, ← h.size_eq, ← h.capacity]
    by_cases hroom : t.capacity ≤ t.size
    · exact .inl ⟨.tooMany .symbols t.capacity, by simp [hroom], by simp [hroom]⟩
    · exact .inr ⟨t.add x, u.add x, by simp [hroom], by simp [hroom], h.add x⟩
  · obtain ⟨w, hw, -⟩ := h.exists_find? hx
    rw [hw]
    exact .inr ⟨t, u, by simp, by simp, h⟩

end Alike

end SymbolTable

/-! ### Lowering -/

/-- What is written for a token, and the registers it leaves on the stack. -/
def Lowered.shape (l : Lowered) : Register × List Instruction × List Register :=
  (l.operand.register, l.code, l.rest.map Operand.register)

private theorem shape_lowerToken {t u : SymbolTable} (h : t.Alike u) (rd : Register) (token : Token)
    {stack stack' : List Operand} (hstack : stack.map Operand.register = stack'.map Operand.register) :
    (lowerToken t rd token stack).map Lowered.shape = (lowerToken u rd token stack').map Lowered.shape := by
  cases token with
  | literal value => simp [lowerToken, Except.map, Lowered.shape, hstack]
  | name x =>
    simp only [lowerToken]
    rcases hx : t.find? x with _ | v
    · rw [h.find?_eq_none hx]
    · obtain ⟨w, hw, hoffset⟩ := h.exists_find? hx
      simp [hw, Except.map, Lowered.shape, hstack, hoffset]
  | operator op =>
    -- Both stacks have the same height.
    rcases stack with _ | ⟨r, _ | ⟨l, stack⟩⟩ <;> rcases stack' with _ | ⟨r', _ | ⟨l', stack'⟩⟩ <;>
      simp at hstack <;> simp [lowerToken, Except.map, Lowered.shape, hstack]
  | lparen | rparen | stop => rfl

/-- The plan of an expression under alike tables: the same code, and the same register or error at the end. -/
private theorem plan_congr {t u : SymbolTable} (h : t.Alike u) (r : UInt32) (tokens : List Token)
    {stack stack' : List Operand} (hstack : stack.map Operand.register = stack'.map Operand.register) :
    (plan t r tokens stack).code = (plan u r tokens stack').code ∧
      (plan t r tokens stack).result.map Operand.register = (plan u r tokens stack').result.map Operand.register := by
  induction tokens generalizing r stack stack' with
  | nil =>
    rcases stack with _ | ⟨o, _ | ⟨o₂, stack⟩⟩ <;> rcases stack' with _ | ⟨o', _ | ⟨o₂', stack'⟩⟩ <;>
      simp at hstack <;> simp [plan, Except.map, hstack]
  | cons token rest ih =>
    have hshape := shape_lowerToken h ⟨r⟩ token hstack
    rcases hl : lowerToken t ⟨r⟩ token stack with e | l <;>
      rcases hl' : lowerToken u ⟨r⟩ token stack' with e' | l' <;> rw [hl, hl'] at hshape
    · rw [plan_cons_of_error hl, plan_cons_of_error hl', Except.error.inj hshape]
      exact ⟨rfl, rfl⟩
    · cases hshape
    · cases hshape
    · have heq : l.shape = l'.shape := Except.ok.inj hshape
      simp only [Lowered.shape, Prod.mk.injEq] at heq
      obtain ⟨hregister, hcode, hrest⟩ := heq
      have hpushed : (l.operand :: l.rest).map Operand.register = (l'.operand :: l'.rest).map Operand.register := by
        simp [hregister, hrest]
      have hstep := ih (r + 1) hpushed
      rw [plan_cons_of_ok hl, plan_cons_of_ok hl']
      exact ⟨by simp [hcode, hstep.1], hstep.2⟩

/-! ### Statements -/

namespace Effect

/-- Effects that differ in values only. -/
structure Alike (f g : Effect) : Prop where
  declared : f.declared.Alike g.declared
  skipped : f.skipped = g.skipped
  code : f.code = g.code
  result : (∃ e, f.result = .error e ∧ g.result = .error e) ∨
    ∃ t u, f.result = .ok t ∧ g.result = .ok u ∧ t.Alike u

private theorem alike_ofExpression {t u : SymbolTable} (h : t.Alike u) (options : Options) (s : Text)
    {use use' : Operand → List Instruction × Except Error SymbolTable}
    (huse : ∀ o o' : Operand, o.register = o'.register → (use o).1 = (use' o').1 ∧
      ∃ t' u', (use o).2 = .ok t' ∧ (use' o').2 = .ok u' ∧ t'.Alike u') :
    (ofExpression options t s use).Alike (ofExpression options u s use') := by
  rw [ofExpression, ofExpression]
  rcases (s.analyse options).result with e | tokens
  · exact ⟨h, rfl, rfl, .inl ⟨e, rfl, rfl⟩⟩
  · obtain ⟨hcode, hresult⟩ := @plan_congr t u h 1 tokens [] [] rfl
    dsimp only
    rcases hp : (plan t 1 tokens []).result with e | o <;>
      rcases hp' : (plan u 1 tokens []).result with e' | o' <;> rw [hp, hp'] at hresult
    · cases hresult
      exact ⟨h, rfl, hcode, .inl ⟨e, rfl, rfl⟩⟩
    · cases hresult
    · cases hresult
    · obtain ⟨hstore, t', u', ht', hu', hlike⟩ := huse o o' (Except.ok.inj hresult)
      exact ⟨h, rfl, by simp [hcode, hstore], .inr ⟨t', u', ht', hu', hlike⟩⟩

/-- What a statement does depends on the names and offsets of the declared variables, not on their values. -/
theorem alike_ofStatement {t u : SymbolTable} (h : t.Alike u) (options : Options) (s : Text) :
    (ofStatement options t s).Alike (ofStatement options u s) := by
  rw [ofStatement, ofStatement]
  rcases Statement.parse options.limits s with e | (⟨x, e⟩ | e | _)
  · exact ⟨h, rfl, rfl, .inl ⟨e, rfl, rfl⟩⟩
  · dsimp only
    rcases h.declare x with ⟨err, ht, hu⟩ | ⟨t', u', ht, hu, h'⟩
    · rw [ht, hu]
      exact ⟨h, rfl, rfl, .inl ⟨err, rfl, rfl⟩⟩
    · rw [ht, hu]
      refine alike_ofExpression h' options e fun o o' ho => ?_
      obtain ⟨v, hv⟩ := SymbolTable.exists_find?_of_declare ht
      obtain ⟨w, hw, hoffset⟩ := h'.exists_find? hv
      have hassign : (t'.assign x o.value).Alike (u'.assign x o'.value) :=
        (t'.alike_assign x _).trans (h'.trans (u'.alike_assign x _).symm)
      simp only [storing, hv, hw]
      exact ⟨by simp [Operand.storeCode, ho, hoffset], _, _, rfl, rfl, hassign⟩
  · exact alike_ofExpression h options e fun _ _ _ => ⟨rfl, t, u, rfl, rfl, h⟩
  · exact ⟨h, rfl, rfl, .inr ⟨t, u, rfl, rfl, h⟩⟩

/-- However much of a statement is carried out, it leaves the table with its declaration, values apart. -/
theorem alike_table (options : Options) (symbols : SymbolTable) (s : Text) (limit room : Nat) :
    ((ofStatement options symbols s).table limit room).Alike (ofStatement options symbols s).declared := by
  rcases table_ofStatement options symbols s limit room _ rfl with ht | ⟨x, value, ht⟩
  · rw [ht]
    exact .refl _
  · rw [ht]
    exact SymbolTable.alike_assign _ x value

end Effect

end ArithMips
