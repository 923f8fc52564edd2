import ArithMips.Proofs.Truncation

/-!
# What a statement contributes

A statement adds code and diagnostics to those of the statements before it, and at most one variable
(`Compilation.contribution`).  While there is room for its code, all that depends on the earlier statements is read off
the layout of the table: not the values of variables, nor the registers used before, nor the code or the diagnostics
(`Compilation.contribution_congr`).  So two runs from states with alike tables get the same contributions
(`Compilation.contributions_congr`), and an expression that stands alone can be put into a program or taken out of it
without a change to what the other statements contribute.
-/

namespace ArithMips

open Mips (Instruction)

/-- What is added to a compilation. -/
structure Contribution where
  code : List Instruction
  diagnostics : List Diagnostic
  /-- The new variables with their offsets. -/
  layout : List (Text × Int64)
deriving DecidableEq

/-- All that is added one after the other. -/
def Contribution.flatten (contributions : List Contribution) : Contribution where
  code := contributions.flatMap code
  diagnostics := contributions.flatMap diagnostics
  layout := contributions.flatMap layout

/-- Whether an error says that the instructions ran out. -/
def Error.isOverrun : Error → Bool
  | tooMany .instructions _ => true
  | _ => false

private theorem Error.isOverrun_iff {e : Error} : e.isOverrun = true ↔ ∃ limit, e = .tooMany .instructions limit := by
  constructor
  · intro h
    unfold isOverrun at h
    split at h
    · exact ⟨_, rfl⟩
    · cases h
  · rintro ⟨limit, rfl⟩
    rfl

private theorem SymbolTable.length_layout (t : SymbolTable) : t.layout.length = t.size := List.length_map _

private theorem SymbolTable.layout_prefix_of_declare {t t' : SymbolTable} {x : Text} (h : t.declare x = .ok t') :
    t.layout <+: t'.layout := by
  rcases declare_cases h with ⟨rfl, -⟩ | ⟨rfl, -⟩
  · exact List.prefix_rfl
  · exact (List.prefix_append _ _).map _

namespace Compilation

/-- What a statement adds. -/
def contribution (c : Compilation) (s : Text) : Contribution where
  code := (c.process s).code.toList.drop c.code.size
  diagnostics := (c.process s).diagnostics.toList.drop c.diagnostics.size
  layout := (c.process s).symbols.layout.drop c.symbols.size

/-- What each of some statements adds when they are compiled one after the other. -/
def contributions (c : Compilation) : List Text → List Contribution
  | [] => []
  | s :: rest => c.contribution s :: (c.process s).contributions rest

/-- Whether one of some statements runs out of instructions. -/
def RunsOut (c : Compilation) (statements : List Text) : Prop :=
  ∃ p ∈ c.contributions statements, ∃ d ∈ p.diagnostics, d.error.isOverrun = true

/-- The state `d` is the state `c` with the additions `p`. -/
structure Extends (c : Compilation) (p : Contribution) (d : Compilation) : Prop where
  code : d.code.toList = c.code.toList ++ p.code
  diagnostics : d.diagnostics.toList = c.diagnostics.toList ++ p.diagnostics
  layout : d.symbols.layout = c.symbols.layout ++ p.layout

/-! ### One statement -/

private theorem code_contribution (c : Compilation) (s : Text) :
    (c.contribution s).code = (c.effect s).code.take c.room := by
  rw [contribution]
  dsimp only
  rw [code_process, ← Array.length_toList, List.drop_left]

theorem diagnostics_contribution (c : Compilation) (s : Text) :
    (c.contribution s).diagnostics = ((c.effect s).errors c.options.limits.instructions c.room).map fun e =>
      { error := e, statement := some s.trim } := by
  rw [contribution]
  dsimp only
  rw [diagnostics_process, ← Array.length_toList, List.drop_left]

theorem layout_process (c : Compilation) (s : Text) : (c.process s).symbols.layout = (c.effect s).declared.layout := by
  rw [symbols_process]
  exact (Effect.alike_table ..).layout

private theorem extends_process (c : Compilation) (s : Text) : c.Extends (c.contribution s) (c.process s) where
  code := by rw [code_contribution, code_process]
  diagnostics := by rw [diagnostics_contribution, diagnostics_process]
  layout := by
    have hprefix : c.symbols.layout <+: (c.process s).symbols.layout := by
      rw [layout_process]
      rcases Effect.declared_ofStatement c.options c.symbols s (c.effect s) rfl with h | ⟨x, e, -, h⟩
      · exact h ▸ List.prefix_rfl
      · exact SymbolTable.layout_prefix_of_declare h
    obtain ⟨added, hadded⟩ := hprefix
    rw [contribution, ← hadded, ← SymbolTable.length_layout, List.drop_left]

private theorem exists_isOverrun_contribution (c : Compilation) (s : Text) :
    (∃ d ∈ (c.contribution s).diagnostics, d.error.isOverrun = true) ↔ c.room < (c.effect s).code.length := by
  rw [← c.exists_tooMany_errors s c.options.limits.instructions, diagnostics_contribution]
  simp only [List.mem_map, Error.isOverrun_iff]
  constructor
  · rintro ⟨d, ⟨e, he, rfl⟩, hlimit⟩
    exact ⟨e, he, hlimit⟩
  · rintro ⟨e, he, hlimit⟩
    exact ⟨_, ⟨e, he, rfl⟩, hlimit⟩

theorem alike_effect {c d : Compilation} (hoptions : c.options = d.options) (h : c.symbols.Alike d.symbols)
    (s : Text) : (c.effect s).Alike (d.effect s) := by
  rw [effect, effect, hoptions]
  exact Effect.alike_ofStatement h d.options s

private theorem alike_process {c d : Compilation} (hoptions : c.options = d.options) (h : c.symbols.Alike d.symbols)
    (s : Text) : (c.process s).symbols.Alike (d.process s).symbols := by
  have hdeclared := (alike_effect hoptions h s).declared
  rw [symbols_process, symbols_process]
  exact (Effect.alike_table ..).trans (hdeclared.trans (Effect.alike_table ..).symm)

/-- With room for its code, a statement contributes the same under alike tables. -/
theorem contribution_congr {c d : Compilation} (hoptions : c.options = d.options) (h : c.symbols.Alike d.symbols)
    {s : Text} (hc : (c.effect s).code.length ≤ c.room) (hd : (d.effect s).code.length ≤ d.room) :
    c.contribution s = d.contribution s := by
  have heffect := alike_effect hoptions h s
  have hcode : (c.contribution s).code = (d.contribution s).code := by
    rw [code_contribution, code_contribution, List.take_of_length_le hc, List.take_of_length_le hd, heffect.code]
  have hdiagnostics : (c.contribution s).diagnostics = (d.contribution s).diagnostics := by
    rw [diagnostics_contribution, diagnostics_contribution, Effect.errors, Effect.errors, Effect.outcome,
      Effect.outcome, if_pos hc, if_pos hd, heffect.skipped]
    -- Both end well or with the same error; the tables that they leave do not matter.
    rcases heffect.result with ⟨e, he, he'⟩ | ⟨t, u, ht, hu, -⟩
    · rw [he, he']
    · rw [ht, hu]
  have hlayout : (c.contribution s).layout = (d.contribution s).layout := by
    rw [contribution, contribution, layout_process, layout_process, heffect.declared.layout, h.size_eq]
  exact (Contribution.mk.injEq ..).mpr ⟨hcode, hdiagnostics, hlayout⟩

/-! ### Runs -/

private theorem contributions_append (c : Compilation) (statements rest : List Text) :
    c.contributions (statements ++ rest) =
      c.contributions statements ++ (c.processAll statements).contributions rest := by
  induction statements generalizing c with
  | nil => rfl
  | cons s statements ih =>
    rw [List.cons_append, contributions, contributions, ih, processAll_cons, List.cons_append]

private theorem length_contributions (c : Compilation) (statements : List Text) :
    (c.contributions statements).length = statements.length := by
  induction statements generalizing c with
  | nil => rfl
  | cons s rest ih => rw [contributions, List.length_cons, List.length_cons, ih]

theorem extends_processAll (c : Compilation) (statements : List Text) :
    c.Extends (.flatten (c.contributions statements)) (c.processAll statements) := by
  induction statements generalizing c with
  | nil => exact ⟨(List.append_nil _).symm, (List.append_nil _).symm, (List.append_nil _).symm⟩
  | cons s rest ih =>
    have hstep := c.extends_process s
    have hrest := ih (c.process s)
    rw [processAll_cons, contributions]
    constructor
    · rw [hrest.code, hstep.code, List.append_assoc]
      rfl
    · rw [hrest.diagnostics, hstep.diagnostics, List.append_assoc]
      rfl
    · rw [hrest.layout, hstep.layout, List.append_assoc]
      rfl

private theorem runsOut_cons (c : Compilation) (s : Text) (rest : List Text) :
    c.RunsOut (s :: rest) ↔ c.room < (c.effect s).code.length ∨ (c.process s).RunsOut rest := by
  rw [← exists_isOverrun_contribution, RunsOut, contributions, List.exists_mem_cons_iff]
  rfl

private theorem runsOut_append (c : Compilation) (statements rest : List Text) :
    c.RunsOut (statements ++ rest) ↔ c.RunsOut statements ∨ (c.processAll statements).RunsOut rest := by
  simp only [RunsOut, contributions_append, List.mem_append, or_and_right, exists_or]

/-- The diagnostics of a run say that the instructions ran out if those before it do or if a statement runs out. -/
private theorem isCut_processAll (c : Compilation) (statements : List Text) :
    (c.processAll statements).IsCut ↔ c.IsCut ∨ c.RunsOut statements := by
  induction statements generalizing c with
  | nil => simp [RunsOut, contributions]
  | cons s rest ih => rw [processAll_cons, ih, isCut_process, runsOut_cons, or_assoc]

/-- While there is room, statements contribute the same to states with alike tables. -/
theorem contributions_congr {c d : Compilation} (hoptions : c.options = d.options) (h : c.symbols.Alike d.symbols)
    {statements : List Text} (hc : ¬c.RunsOut statements) (hd : ¬d.RunsOut statements) :
    c.contributions statements = d.contributions statements := by
  induction statements generalizing c d with
  | nil => rfl
  | cons s rest ih =>
    rw [runsOut_cons, not_or, Nat.not_lt] at hc hd
    have hoptions' : (c.process s).options = (d.process s).options := by simpa using hoptions
    rw [contributions, contributions, contribution_congr hoptions h hc.1 hd.1,
      ih hoptions' (alike_process hoptions h s) hc.2 hd.2]

/-- More room does not make a run that had enough of it run out. -/
private theorem not_runsOut_of_room_le {c d : Compilation} (hoptions : c.options = d.options)
    (h : c.symbols.Alike d.symbols) (hroom : c.room ≤ d.room) {statements : List Text}
    (hc : ¬c.RunsOut statements) : ¬d.RunsOut statements := by
  induction statements generalizing c d with
  | nil => simp [RunsOut, contributions]
  | cons s rest ih =>
    rw [runsOut_cons, not_or, Nat.not_lt] at hc ⊢
    have hcode := (alike_effect hoptions h s).code
    have hoptions' : (c.process s).options = (d.process s).options := by simpa using hoptions
    have hroom' : (c.process s).room ≤ (d.process s).room := by
      rw [room_process, room_process, hcode]
      omega
    rw [hcode] at hc
    exact ⟨Nat.le_trans hc.1 hroom, ih hoptions' (alike_process hoptions h s) hroom' hc.2⟩

/-- While there is room, states with the same table stay so. -/
private theorem symbols_processAll_congr {c d : Compilation} (hoptions : c.options = d.options)
    (h : c.symbols = d.symbols) {statements : List Text} (hc : ¬c.RunsOut statements) (hd : ¬d.RunsOut statements) :
    (c.processAll statements).symbols = (d.processAll statements).symbols := by
  induction statements generalizing c d with
  | nil => exact h
  | cons s rest ih =>
    rw [runsOut_cons, not_or, Nat.not_lt] at hc hd
    have hoptions' : (c.process s).options = (d.process s).options := by simpa using hoptions
    have heffect : c.effect s = d.effect s := by rw [effect, effect, hoptions, h]
    have hsymbols : (c.process s).symbols = (d.process s).symbols := by
      rw [symbols_process, symbols_process, Effect.table, Effect.table, Effect.outcome, Effect.outcome, if_pos hc.1,
        if_pos hd.1, heffect]
    exact ih hoptions' hsymbols hc.2 hd.2

private theorem room_processAll (c : Compilation) (statements : List Text) :
    (c.processAll statements).room =
      c.room - (Contribution.flatten (c.contributions statements)).code.length := by
  have hsize := congrArg List.length (c.extends_processAll statements).code
  rw [List.length_append, Array.length_toList, Array.length_toList] at hsize
  simp only [room, Emitter.room, options_processAll, code] at hsize ⊢
  omega

/-! ### Expressions that stand alone -/

private theorem symbols_process_of_expression {c : Compilation} {s e : Text}
    (h : Statement.parse c.options.limits s = .ok (.expression e)) : (c.process s).symbols = c.symbols := by
  have hdeclared : (c.effect s).declared = c.symbols := by
    rcases Effect.declared_ofStatement c.options c.symbols s (c.effect s) rfl with hd | ⟨x, e', hparse, -⟩
    · exact hd
    · rw [h] at hparse
      cases hparse
  rw [symbols_process]
  rcases (c.effect s).table_cases c.options.limits.instructions c.room with ht | ⟨-, ht⟩
  · rw [ht, hdeclared]
  · rcases Effect.ofStatement_eq_ok (c.effect s) rfl ht with
      ⟨-, -, hsame⟩ | ⟨-, -, -, -, -, -, -, hsame⟩ | ⟨x, e', -, -, -, hparse, -⟩
    · exact hsame
    · exact hsame
    · rw [h] at hparse
      cases hparse

/-- A run with an expression that stands alone beside the run without it. -/
private theorem contributions_eraseIdx {c d : Compilation} (hoptions : c.options = d.options)
    (h : c.symbols = d.symbols) (hroom : c.room ≤ d.room) {before after : List Text} {s e : Text}
    (hs : Statement.parse c.options.limits s = .ok (.expression e)) (hc : ¬c.RunsOut (before ++ s :: after)) :
    (d.processAll (before ++ after)).symbols = (c.processAll (before ++ s :: after)).symbols ∧
      d.contributions (before ++ after) = (c.contributions (before ++ s :: after)).eraseIdx before.length := by
  rw [runsOut_append, runsOut_cons, not_or, not_or] at hc
  obtain ⟨hbefore, -, hafter⟩ := hc
  -- Up to the expression both runs do the same.
  have hbefore' := not_runsOut_of_room_le hoptions (h ▸ .refl _) hroom hbefore
  have hcontributions := contributions_congr hoptions (h ▸ .refl _) hbefore hbefore'
  have hsymbols := symbols_processAll_congr hoptions h hbefore hbefore'
  have hroom₁ : (c.processAll before).room ≤ (d.processAll before).room := by
    rw [room_processAll, room_processAll, hcontributions]
    omega
  -- It changes nothing that later statements read, and takes some room.
  have hoptions₂ : ((c.processAll before).process s).options = (d.processAll before).options := by simpa using hoptions
  have hsymbols₂ : ((c.processAll before).process s).symbols = (d.processAll before).symbols := by
    rw [symbols_process_of_expression (by rwa [options_processAll]), hsymbols]
  have hroom₂ : ((c.processAll before).process s).room ≤ (d.processAll before).room := by
    rw [room_process]
    omega
  have hafter' := not_runsOut_of_room_le hoptions₂ (hsymbols₂ ▸ .refl _) hroom₂ hafter
  constructor
  · rw [processAll_append, processAll_append, processAll_cons]
    exact (symbols_processAll_congr hoptions₂ hsymbols₂ hafter hafter').symm
  · rw [contributions_append, contributions_append, contributions,
      List.eraseIdx_append_of_length_le (Nat.le_of_eq (length_contributions ..)), length_contributions, Nat.sub_self,
      List.eraseIdx_zero, List.tail_cons, hcontributions,
      contributions_congr hoptions₂ (hsymbols₂ ▸ .refl _) hafter hafter']

/-- What each statement of a program adds. -/
def contributionsOf (options : Options) (program : Text) : List Contribution :=
  (opening options program).contributions program.normalizeSpace.statements

private theorem room_opening (options : Options) (program : Text) :
    (opening options program).room = options.limits.instructions := by
  unfold opening
  split <;> rfl

/-- Statements add the same code, diagnostics and variables to any two states that have the same options and tables
with the same names at the same offsets and the same capacity, unless there is no room for them.  The next offset is the
same in such tables if declarations have built them; it has to be given of any others.  And a program has the same table
with an expression that stands alone as without it, and every other statement adds the same. -/
theorem contributions_of_layout :
    (∀ (c d : Compilation) (statements : List Text), c.options = d.options →
        c.symbols.layout = d.symbols.layout → c.symbols.capacity = d.symbols.capacity →
        c.symbols.WellFormed ∧ d.symbols.WellFormed ∨ c.symbols.nextOffset = d.symbols.nextOffset →
        ¬c.RunsOut statements → ¬d.RunsOut statements →
          ∃ added, c.contributions statements = added ∧ d.contributions statements = added ∧
            c.Extends (.flatten added) (c.processAll statements) ∧
            d.Extends (.flatten added) (d.processAll statements)) ∧
      ∀ (options : Options) (program program' : Text) (before after : List Text) (s e : Text),
        program.normalizeSpace.statements = before ++ s :: after →
        program'.normalizeSpace.statements = before ++ after →
        Statement.parse options.limits s = .ok (.expression e) → ¬(ofProgram options program).IsCut →
          (ofProgram options program').symbols = (ofProgram options program).symbols ∧
            contributionsOf options program' = (contributionsOf options program).eraseIdx before.length := by
  constructor
  · intro c d statements hoptions hlayout hcapacity hnext hc hd
    have halike : c.symbols.Alike d.symbols := by
      rcases hnext with ⟨hwf, hwf'⟩ | hnext
      · exact hwf.alike hwf' hlayout hcapacity
      · exact ⟨hlayout, hcapacity, hnext⟩
    have hsame := contributions_congr hoptions halike hc hd
    exact ⟨_, rfl, hsame.symm, c.extends_processAll statements, hsame ▸ d.extends_processAll statements⟩
  · intro options program program' before after s e hwith hwithout hs hcut
    rw [ofProgram_eq, isCut_processAll, not_or, hwith] at hcut
    rw [ofProgram_eq, ofProgram_eq, contributionsOf, contributionsOf, hwith, hwithout]
    apply contributions_eraseIdx
    · rw [options_opening, options_opening]
    · rw [symbols_opening, symbols_opening]
    · rw [room_opening, room_opening]
    · rwa [options_opening]
    · exact hcut.2

/-- Two states with other values, code and diagnostics; and a program with and without an expression. -/
theorem contributions_of_layout_second_statement :
    let c := (start {}).processAll ["int a = 2".toList, "int b = 3".toList]
    let d := (start {}).processAll ["int a = 5 +".toList, "(1 - 8) / 0".toList, "int b = 7".toList]
    let statements := ["int c = a * b".toList, "c + q".toList, "int a = b $".toList]
    (c.symbols ≠ d.symbols ∧ c.code.size ≠ d.code.size ∧ c.diagnostics.size ≠ d.diagnostics.size ∧
        c.contributions statements = d.contributions statements) ∧
      contributionsOf {} "int a = 2; int b = a;".toList =
        (contributionsOf {} "int a = 2; a * (3 - a); int b = a;".toList).eraseIdx 1 := by
  intro c d statements
  refine ⟨⟨by decide +kernel, by decide +kernel, by decide +kernel, ?_⟩, ?_⟩
  · have hwf : ∀ statements, ((start {}).processAll statements).symbols.WellFormed :=
      wellFormed_processAll (SymbolTable.wellFormed_empty _)
    have hc : ¬c.RunsOut statements := by unfold RunsOut; decide +kernel
    have hd : ¬d.RunsOut statements := by unfold RunsOut; decide +kernel
    obtain ⟨added, hadded, hadded', -, -⟩ := contributions_of_layout.1 c d statements (by decide +kernel)
      (by decide +kernel) (by decide +kernel) (.inl ⟨hwf _, hwf _⟩) hc hd
    rw [hadded, hadded']
  · have hcut : ¬(ofProgram {} "int a = 2; a * (3 - a); int b = a;".toList).IsCut := by
      have hnone : (ofProgram {} "int a = 2; a * (3 - a); int b = a;".toList).diagnostics.toList = [] := by
        decide +kernel
      rintro ⟨d, hd, -⟩
      rw [hnone] at hd
      cases hd
    exact (contributions_of_layout.2 {} _ _ ["int a = 2".toList] ["int b = a".toList] "a * (3 - a)".toList
      "a * (3 - a)".toList (by decide +kernel) (by decide +kernel) (by decide +kernel) hcut).2

end Compilation

end ArithMips
