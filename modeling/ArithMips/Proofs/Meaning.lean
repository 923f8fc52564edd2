import ArithMips.Proofs.Language
import ArithMips.Proofs.Postorder
import ArithMips.Proofs.Process
import ArithMips.Proofs.Scan

/-!
# Compiling a source of a program

Compiling any source of a program reports nothing and leaves the variables of `interpret` in the symbol table, as
long as the program is scoped and stays within the limits (`Compilation.symbols_ofProgram_of_isSource`).

The invariant of a run is that the table lists the variables of the interpreter (`Follows`).  One command keeps it:
its statement is read as it was meant, its tokens are those that were spelled, their reverse Polish order is the
postorder of the tree, and lowering that gives the value of the tree.
-/

namespace ArithMips

open Mips (Instruction Register)

/-! ### Stores -/

namespace Store

def names (σ : Store) : List Text := σ.map Prod.fst

private theorem set_of_notMem {σ : Store} {x : Text} (hx : x ∉ σ.names) (value : Int64) :
    σ.set x value = σ ++ [(x, value)] := by
  induction σ with
  | nil => rfl
  | cons p σ ih =>
    obtain ⟨y, old⟩ := p
    simp only [names, List.map_cons, List.mem_cons, not_or] at hx
    rw [set, if_neg (Ne.symm hx.1), ih hx.2]
    rfl

private theorem update_of_notMem {σ : Store} {x : Text} (hx : x ∉ σ.names) (value : Int64) :
    (σ.map fun p => if p.1 = x then (p.1, value) else p) = σ := by
  refine (List.map_congr_left fun p hp => ?_).trans (List.map_id σ)
  have hne : p.1 ≠ x := by
    rintro rfl
    exact hx (List.mem_map.2 ⟨p, hp, rfl⟩)
  rw [if_neg hne, id]

private theorem set_of_mem {σ : Store} {x : Text} (hnodup : σ.names.Nodup) (hx : x ∈ σ.names) (value : Int64) :
    σ.set x value = σ.map fun p => if p.1 = x then (p.1, value) else p := by
  induction σ with
  | nil => cases hx
  | cons p σ ih =>
    obtain ⟨y, old⟩ := p
    obtain ⟨hy, hnodup⟩ := List.nodup_cons.1 hnodup
    by_cases hyx : y = x
    · -- No later variable has the same name.
      subst hyx
      rw [set, if_pos rfl, List.map_cons, if_pos rfl, update_of_notMem hy]
    · have hx' : x ∈ names σ := (List.mem_cons.1 hx).resolve_left (Ne.symm hyx)
      rw [set, if_neg hyx, List.map_cons, if_neg hyx, ih hnodup hx']

private theorem mem_names_set (σ : Store) (x : Text) (value : Int64) {y : Text} :
    y ∈ (σ.set x value).names ↔ y = x ∨ y ∈ σ.names := by
  induction σ with
  | nil => simp [set, names]
  | cons p σ ih =>
    obtain ⟨z, old⟩ := p
    by_cases hz : z = x
    · subst hz
      simp [set, names]
    · rw [set, if_neg hz]
      simp only [names, List.map_cons, List.mem_cons] at ih ⊢
      rw [ih]
      exact or_left_comm

private theorem length_le_set (σ : Store) (x : Text) (value : Int64) : σ.length ≤ (σ.set x value).length := by
  induction σ with
  | nil => simp
  | cons p σ ih =>
    obtain ⟨y, old⟩ := p
    by_cases hy : y = x
    · simp [set, hy]
    · simpa [set, hy] using ih

end Store

private theorem Command.length_le_run (c : Command) (σ : Store) : σ.length ≤ (c.run σ).length := by
  cases c with
  | declaration x e => exact σ.length_le_set x _
  | expression => exact Nat.le_refl _

private theorem length_le_foldl_run (program : List Command) (σ : Store) :
    σ.length ≤ (program.foldl Command.run σ).length := by
  induction program generalizing σ with
  | nil => exact Nat.le_refl _
  | cons c program ih => exact Nat.le_trans (c.length_le_run σ) (ih _)

/-! ### The variables of a table -/

namespace SymbolTable

/-- The variables of a table with their values. -/
def store (t : SymbolTable) : Store := t.entries.map fun v => (v.name, v.value)

theorem names_store (t : SymbolTable) : t.store.names = t.entries.map Variable.name := by
  simp [store, Store.names]

private theorem length_store (t : SymbolTable) : t.store.length = t.size := by simp [store, size]

private theorem lookup_store (t : SymbolTable) (x : Text) : List.lookup x t.store = (t.find? x).map Variable.value := by
  rw [store, find?]
  induction t.entries with
  | nil => rfl
  | cons v entries ih =>
    by_cases hv : v.name = x
    · simp [hv]
    · have hv' : (x == v.name) = false := by simpa using Ne.symm hv
      simp [List.lookup_cons, hv, hv', ih]

theorem exists_find?_of_mem_store {t : SymbolTable} {x : Text} (hx : x ∈ t.store.names) :
    ∃ v, t.find? x = some v ∧ v.value = t.store.value x := by
  rw [names_store, ← find?_isSome, Option.isSome_iff_exists] at hx
  obtain ⟨v, hv⟩ := hx
  refine ⟨v, hv, ?_⟩
  rw [Store.value, lookup_store, hv]
  rfl

private theorem store_assign (t : SymbolTable) (x : Text) (value : Int64) :
    (t.assign x value).store = t.store.map fun p => if p.1 = x then (p.1, value) else p := by
  simp only [store, assign, List.map_map]
  refine List.map_congr_left fun v _ => ?_
  simp only [Function.comp_apply]
  split <;> rfl

private theorem exists_declare {t : SymbolTable} (h : t.WellFormed) {x : Text} {value : Int64}
    (hroom : (t.store.set x value).length ≤ t.capacity) :
    ∃ t', t.declare x = .ok t' ∧ (t'.assign x value).store = t.store.set x value ∧ t'.store.value = t.store.value := by
  have hnodup : t.store.names.Nodup := by
    rw [names_store]
    exact h.nodup
  rw [declare]
  by_cases hx : x ∈ t.store.names
  · refine ⟨t, ?_, ?_, rfl⟩
    · rw [if_pos (find?_isSome.2 (by rwa [← names_store]))]
    · rw [store_assign, Store.set_of_mem hnodup hx]
  · rw [Store.set_of_notMem hx, List.length_append, length_store, List.length_singleton] at hroom
    have hnone : t.find? x = none := find?_eq_none.2 (by rwa [← names_store])
    have hstore : (t.add x).store = t.store ++ [(x, 0)] := by simp [store, add]
    refine ⟨t.add x, ?_, ?_, ?_⟩
    · rw [if_neg (by simp [hnone]), if_neg (by omega)]
    · rw [store_assign, hstore, Store.set_of_notMem hx, List.map_append]
      rw [Store.update_of_notMem hx]
      simp
    · -- A new variable is zero, as it was before.
      funext y
      have hlookup : List.lookup x t.store = none := by rw [lookup_store, hnone]; rfl
      rw [Store.value, Store.value, hstore, List.lookup_append]
      by_cases hy : y = x
      · subst hy
        simp [hlookup]
      · have hy' : (y == x) = false := by simpa using hy
        simp [List.lookup_cons, hy']

end SymbolTable

/-! ### The statement of a command -/

/-- The number of instructions of a command.  The value of a declaration is moved to the result register before it
is stored, unless it is there already. -/
def Command.codeSize : Command → Nat
  | declaration _ e => e.expr.codeSize + if e.expr.postorder.length % 2 ^ 32 = 3 then 1 else 2
  | expression e => e.expr.codeSize

private theorem plan_postorder {symbols : SymbolTable} {values : Text → Int64} {e : Expr}
    (hdeclared : ∀ x ∈ e.names, ∃ v, symbols.find? x = some v ∧ v.value = values x) :
    (plan symbols 1 e.postorder []).code.length = e.codeSize ∧
      (plan symbols 1 e.postorder []).result =
        .ok { register := ⟨UInt32.ofNat e.postorder.length⟩, value := e.eval values } := by
  obtain ⟨code, hlen, hplan⟩ := plan_postorder_append hdeclared 1 [] []
  have hpos : 1 + (e.postorder.length - 1) = e.postorder.length := by
    have := List.length_pos_of_ne_nil e.postorder_ne_nil
    omega
  have hregister : (1 : UInt32) + UInt32.ofNat (e.postorder.length - 1) = UInt32.ofNat e.postorder.length := by
    rw [← hpos, UInt32.ofNat_add, hpos]
    rfl
  rw [List.append_nil, hregister] at hplan
  rw [hplan]
  exact ⟨by simpa [plan] using hlen, rfl⟩

private theorem length_storeCode (n : Nat) (value : Int64) (x : Text) (offset : Int64) :
    (Operand.storeCode { register := ⟨UInt32.ofNat n⟩, value } x offset).length =
      if n % 2 ^ 32 = 3 then 1 else 2 := by
  have hiff : (⟨UInt32.ofNat n⟩ : Register) = .result ↔ n % 2 ^ 32 = 3 := by
    rw [Register.result, Register.mk.injEq, ← UInt32.toNat_inj, UInt32.toNat_ofNat]
    rfl
  by_cases hn : n % 2 ^ 32 = 3
  · rw [Operand.storeCode, if_pos (hiff.2 hn), if_pos hn]
    rfl
  · rw [Operand.storeCode, if_neg (fun h => hn (hiff.1 h)), if_neg hn]
    rfl

/-- A spelled expression whose variables are declared passes on its value. -/
private theorem Effect.ofExpression_of_spelled {options : Options} {symbols : SymbolTable} {values : Text → Int64}
    {e : Written} {s : Text} (hs : Spelled e.tokens s) (htokens : e.tokens.length ≤ options.limits.tokens)
    (hnames : ∀ x ∈ e.expr.names, x.length ≤ options.limits.identifierLength)
    (hdeclared : ∀ x ∈ e.expr.names, ∃ v, symbols.find? x = some v ∧ v.value = values x)
    (use : Operand → List Instruction × Except Error SymbolTable) (o : Operand)
    (ho : o = { register := ⟨UInt32.ofNat e.expr.postorder.length⟩, value := e.expr.eval values }) :
    (ofExpression options symbols s use).skipped = [] ∧
      (ofExpression options symbols s use).code.length = e.expr.codeSize + (use o).1.length ∧
      (ofExpression options symbols s use).result = (use o).2 := by
  have hscan := hs.scan e.isChain (fun x hx => hnames x (mem_names_of_writes e.writes hx)) htokens
  obtain ⟨hskipped, hresult⟩ := Text.analyse_of_scan hscan (Polish.polish_of_writes e.writes _ [])
  obtain ⟨hcode, hplan⟩ := plan_postorder hdeclared
  rw [ofExpression, hresult]
  dsimp only
  rw [hplan, ← ho]
  exact ⟨hskipped, by rw [List.length_append, hcode], rfl⟩

/-! ### Runs -/

/-- The table lists the variables of a store, and the variables in scope are among them. -/
structure Follows (limits : Limits) (vars : List Text) (σ : Store) (t : SymbolTable) : Prop where
  wellFormed : t.WellFormed
  capacity : t.capacity = limits.symbols
  store : t.store = σ
  vars : ∀ x ∈ vars, x ∈ σ.names ∧ IsName limits x

theorem Command.IsSource.effect {c : Command} {s : Text} (h : c.IsSource s) {options : Options} {vars : List Text}
    {σ : Store} {t : SymbolTable} (hf : Follows options.limits vars σ t)
    (hname : ∀ x ∈ c.scope [], IsName options.limits x) (hscope : ∀ x ∈ c.value.expr.names, x ∈ c.scope vars)
    (htokens : c.value.tokens.length ≤ options.limits.tokens) (hsymbols : (c.run σ).length ≤ options.limits.symbols)
    (f : Effect) (hfx : f = .ofStatement options t s.squeeze.trim) :
    f.skipped = [] ∧ f.code.length = c.codeSize ∧
      ∃ t', f.result = .ok t' ∧ Follows options.limits (c.scope vars) (c.run σ) t' := by
  obtain ⟨wf, hcapacity, rfl, hvars⟩ := hf
  cases c with
  | expression e =>
    have hreads : ∀ x ∈ e.expr.names, x ∈ t.store.names ∧ IsName options.limits x := fun x hx =>
      hvars x (hscope x hx)
    obtain ⟨u, hu, hparse, -⟩ := h.parse hname fun x hx => (hreads x hx).2.ne_keyword
    obtain ⟨hskipped, hcode, hresult⟩ := Effect.ofExpression_of_spelled hu htokens
      (fun x hx => (hreads x hx).2.length_le) (fun x hx => SymbolTable.exists_find?_of_mem_store (hreads x hx).1)
      (fun _ => ([], .ok t)) _ rfl
    rw [Effect.ofStatement, hparse] at hfx
    subst hfx
    exact ⟨hskipped, hcode, t, hresult, wf, hcapacity, rfl, hvars⟩
  | declaration x e =>
    rw [← hcapacity] at hsymbols
    -- The variable is in the table before its expression is read, which may read it.
    obtain ⟨t', hdeclare, hassign, hvalue⟩ := SymbolTable.exists_declare wf hsymbols
    have hmem : ∀ y ∈ x :: vars, y ∈ t'.store.names := by
      intro y hy
      rw [SymbolTable.names_store, ← SymbolTable.name_assign, ← SymbolTable.names_store, hassign,
        Store.mem_names_set]
      exact (List.mem_cons.1 hy).imp_right fun hy => (hvars y hy).1
    have hnames : ∀ y ∈ x :: vars, IsName options.limits y := by
      intro y hy
      rcases List.mem_cons.1 hy with rfl | hy
      · exact hname y (by simp [Command.scope])
      · exact (hvars y hy).2
    have hdeclared : ∀ y ∈ e.expr.names, ∃ v, t'.find? y = some v ∧ v.value = t.store.value y := by
      intro y hy
      rw [← hvalue]
      exact SymbolTable.exists_find?_of_mem_store (hmem y (hscope y hy))
    obtain ⟨u, hu, hparse, -⟩ := h.parse hname fun y hy => (hnames y (hscope y hy)).ne_keyword
    obtain ⟨hskipped, hcode, hresult⟩ := Effect.ofExpression_of_spelled hu htokens
      (fun y hy => (hnames y (hscope y hy)).length_le) hdeclared (Effect.storing t' x) _ rfl
    obtain ⟨v, hv⟩ := SymbolTable.exists_find?_of_declare hdeclare
    rw [Effect.storing, hv] at hcode hresult
    dsimp only at hcode hresult
    rw [length_storeCode] at hcode
    rw [Effect.ofStatement, hparse] at hfx
    dsimp only [Command.statement] at hfx
    rw [hdeclare] at hfx
    subst hfx
    refine ⟨hskipped, hcode, _, hresult, (wf.declare hdeclare).assign x _, ?_, hassign, ?_⟩
    · have hkeep := SymbolTable.capacity_declare hdeclare
      exact hkeep.trans hcapacity
    · intro y hy
      refine ⟨?_, hnames y hy⟩
      rw [Command.run, ← hassign, SymbolTable.names_store, SymbolTable.name_assign, ← SymbolTable.names_store]
      exact hmem y hy

theorem Command.IsSource.statements {c : Command} {s : Text} (h : c.IsSource s) {limits : Limits}
    (hname : ∀ x ∈ c.scope [], IsName limits x) (hreads : ∀ x ∈ c.value.expr.names, x ≠ "int".toList) :
    s.normalizeSpace.statements = [s.squeeze.trim] := by
  obtain ⟨-, -, -, hne⟩ := h.parse hname hreads
  rw [Text.statements_normalizeSpace]
  refine Text.statements_of_semicolon_notMem (fun hc => h.semicolon_notMem hname ?_) hne
  exact Text.mem_squeeze (by decide) hc

/-- Compiling a source of a program keeps pace with the interpreter. -/
private theorem IsSource.follows_processAll {program : List Command} {s : Text} (h : IsSource program s)
    {c : Compilation}
    {vars : List Text} {σ : Store} (hf : Follows c.options.limits vars σ c.symbols) (hscope : Scoped vars program)
    (hnames : ∀ d ∈ program, ∀ x ∈ d.scope [], IsName c.options.limits x)
    (htokens : ∀ d ∈ program, d.value.tokens.length ≤ c.options.limits.tokens)
    (hsymbols : (program.foldl Command.run σ).length ≤ c.options.limits.symbols)
    (hroom : (program.map Command.codeSize).sum ≤ c.room) :
    (c.processAll s.normalizeSpace.statements).diagnostics = c.diagnostics ∧
      ∃ vars', Follows c.options.limits vars' (program.foldl Command.run σ)
        (c.processAll s.normalizeSpace.statements).symbols := by
  induction h generalizing c vars σ with
  | nil hgap =>
    rw [Text.statements_normalizeSpace, Text.squeeze_gap hgap]
    exact ⟨rfl, vars, hf⟩
  | @cons d program s u hd hu ih =>
    -- The first command runs to its end; the others are left with its table and with the rest of the room.
    obtain ⟨hreads, hscope⟩ := hscope
    have hname := hnames d List.mem_cons_self
    have hreads' : ∀ x ∈ d.value.expr.names, x ≠ "int".toList := by
      intro x hx
      have hx := hreads x hx
      cases d with
      | expression => exact (hf.vars x hx).2.ne_keyword
      | declaration y =>
        rcases List.mem_cons.1 hx with rfl | hx
        · exact (hname x (by simp [Command.scope])).ne_keyword
        · exact (hf.vars x hx).2.ne_keyword
    rw [List.map_cons, List.sum_cons] at hroom
    have hlen := Nat.le_trans (length_le_foldl_run program (d.run σ)) hsymbols
    obtain ⟨hskipped, hcode, t, hresult, hf'⟩ :=
      hd.effect hf hname hreads (htokens d List.mem_cons_self) hlen (c.effect s.squeeze.trim) rfl
    obtain ⟨hsym, hdiag, hroom'⟩ := Compilation.process_of_fits hskipped hresult (by omega)
    rw [Text.statements_append, hd.statements hname hreads', List.singleton_append, Compilation.processAll_cons]
    have hnext : Follows (c.process s.squeeze.trim).options.limits (d.scope vars) (d.run σ)
        (c.process s.squeeze.trim).symbols := by
      rw [Compilation.options_process, hsym]
      exact hf'
    have hrun := ih hnext hscope
    simp only [Compilation.options_process, hroom', hcode, hdiag] at hrun
    exact hrun (fun d' hd' => hnames d' (List.mem_cons_of_mem _ hd'))
      (fun d' hd' => htokens d' (List.mem_cons_of_mem _ hd')) hsymbols (by omega)

/-- What keeps a program within the limits. -/
structure WithinLimits (limits : Limits) (program : List Command) : Prop where
  names : ∀ c ∈ program, ∀ x ∈ c.scope [], IsName limits x
  tokens : ∀ c ∈ program, c.value.tokens.length ≤ limits.tokens
  symbols : (interpret program).length ≤ limits.symbols
  instructions : (program.map Command.codeSize).sum ≤ limits.instructions

/-- The rows of a table that follows a store: the slots of the variables are consecutive. -/
private theorem Follows.rows {limits : Limits} {vars : List Text} {σ : Store} {t : SymbolTable}
    (h : Follows limits vars σ t) (hsize : σ.length < 2 ^ 60 - 1) :
    t.entries.map (fun v => (v.name, v.offset.toInt, v.value)) =
      σ.mapIdx fun i p => (p.1, 8 * ((i : Int) + 1), p.2) := by
  obtain ⟨wf, -, rfl, -⟩ := h
  rw [SymbolTable.length_store] at hsize
  refine List.ext_getElem (by simp [SymbolTable.store]) fun i hi _ => ?_
  rw [List.length_map] at hi
  have hoffset : t.entries[i].offset = SymbolTable.offsetAt i := by
    have hget := congrArg (fun l => l[i]?) wf.offsets
    simpa [hi, SymbolTable.size] using hget
  have hi' : i < 2 ^ 60 - 1 := Nat.lt_trans hi hsize
  simp [SymbolTable.store, hoffset, SymbolTable.toInt_offsetAt hi']

/-- Compiling a source of a program reports nothing and gives every variable the value of the interpreter. -/
theorem Compilation.symbols_ofProgram_of_isSource {options : Options} {program : List Command} {s : Text}
    (hsource : IsSource program s) (hscope : Scoped [] program) (hlimits : WithinLimits options.limits program)
    (hsize : (interpret program).length < 2 ^ 60 - 1) :
    (ofProgram options s).diagnostics = #[] ∧
      (ofProgram options s).symbols.entries.map (fun v => (v.name, v.offset.toInt, v.value)) =
        (interpret program).mapIdx fun i p => (p.1, 8 * ((i : Int) + 1), p.2) := by
  have hopening : opening options s = start options := by
    rw [opening, hsource.checkSemicolons]
  have hstart : Follows options.limits [] [] (start options).symbols :=
    ⟨SymbolTable.wellFormed_empty _, rfl, rfl, by simp⟩
  rw [ofProgram_eq, hopening]
  obtain ⟨hdiag, vars, hf⟩ := hsource.follows_processAll (c := start options) hstart hscope hlimits.names hlimits.tokens
    hlimits.symbols hlimits.instructions
  exact ⟨hdiag, hf.rows hsize⟩

/-- The expression `2 - (-3)`. -/
private def difference : Written where
  expr := .binary .sub (.literal 2) (.literal (-3))
  tokens := [.literal 2, .operator .sub, .lparen, .literal (-3), .rparen]
  writes := .addition (.inr rfl) (.sum (.term (.literal 2))) (.term (.paren (.sum (.term (.literal (-3))))))

/-- The expression `x * x - 7`. -/
private def square : Written where
  expr := .binary .sub (.binary .mul (.name ['x']) (.name ['x'])) (.literal 7)
  tokens := [.name ['x'], .operator .mul, .name ['x'], .operator .sub, .literal 7]
  writes := .addition (.inr rfl) (.sum (.product (.inl rfl) (.term (.name _)) (.name _))) (.term (.literal 7))

theorem Compilation.symbols_ofProgram_of_isSource_squared :
    (ofProgram {} " int x=2-(-03);int x = x *x - 7 ;".toList).diagnostics = #[] ∧
      (ofProgram {} " int x=2-(-03);int x = x *x - 7 ;".toList).symbols.entries.map
        (fun v => (v.name, v.offset.toInt, v.value)) = [("x".toList, 8, 18)] := by
  have hnil := Text.isGap_nil
  have hblank : Text.IsGap [' '] := by simp [Text.IsGap, Text.isSpace]
  have htwo : Spells (.literal 2) ['2'] :=
    @Spells.literal 2 false ['2'] (by decide) (by simp) (by decide +kernel)
  have hthree : Spells (.literal (-3)) ['-', '0', '3'] :=
    @Spells.literal (-3) true ['0', '3'] (by decide) (by simp) (by decide +kernel)
  have hseven : Spells (.literal 7) ['7'] :=
    @Spells.literal 7 false ['7'] (by decide) (by simp) (by decide +kernel)
  have hx : Spells (.name ['x']) ['x'] := .name (by decide)
  have hdifference : Spelled difference.tokens "2-(-03)".toList :=
    @Spelled.cons _ _ [] _ _ hnil htwo (by simp) <|
    @Spelled.cons _ _ [] _ _ hnil (.operator .sub) (fun _ => rfl) <|
    @Spelled.cons _ _ [] _ _ hnil .lparen (by simp) <|
    @Spelled.cons _ _ [] _ _ hnil hthree (by simp) <|
    @Spelled.cons _ _ [] _ _ hnil .rparen (by simp) .nil
  have hsquare : Spelled square.tokens " x *x - 7".toList :=
    @Spelled.cons _ _ [' '] _ _ hblank hx (by simp) <|
    @Spelled.cons _ _ [' '] _ _ hblank (.operator .mul) (by simp) <|
    @Spelled.cons _ _ [] _ _ hnil hx (by simp) <|
    @Spelled.cons _ _ [' '] _ _ hblank (.operator .sub) (fun _ => rfl) <|
    @Spelled.cons _ _ [' '] _ _ hblank hseven (by simp) .nil
  have hsource : IsSource [.declaration ['x'] difference, .declaration ['x'] square]
      " int x=2-(-03);int x = x *x - 7 ;".toList :=
    .cons (@Command.IsSource.declaration _ _ [' '] [' '] [] [] _ hblank hblank (by simp) hnil hnil hdifference) <|
    .cons (@Command.IsSource.declaration _ _ [] [' '] [' '] [' '] _ hnil hblank (by simp) hblank hblank hsquare) <|
    .nil hnil
  have hname : IsName {} ['x'] := ⟨by decide, by decide, by decide⟩
  have hlimits : WithinLimits {} [.declaration ['x'] difference, .declaration ['x'] square] := by
    refine ⟨?_, ?_, by decide, by decide⟩
    · simp [Command.scope, hname]
    · simp [Command.value, difference, square]
  have hscope : Scoped [] [.declaration ['x'] difference, .declaration ['x'] square] := by
    simp [Scoped, Command.scope, Command.value, difference, square, Expr.names]
  exact symbols_ofProgram_of_isSource hsource hscope hlimits (by decide)

end ArithMips
