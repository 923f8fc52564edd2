import ArithMips.Proofs.Diagnostics
import ArithMips.Proofs.Layout

/-!
# The limit on instructions

The limit on instructions only cuts the code of a program.  Two runs with different limits see the same effects
(`Effect.ofStatement_capped`) up to the values of variables, since a statement that was cut assigns nothing; and no
later code depends on a value.  So the code under the smaller limit is the beginning of the code under the larger one,
and the variables have the same names and offsets (`Truncates`).  Before the limit is reached the two runs are equal.
-/

namespace ArithMips

open Mips (Instruction Register)

/-- The same options with another limit on instructions. -/
def Options.capped (limit : Nat) (options : Options) : Options :=
  { options with limits := { options.limits with instructions := limit } }

private theorem Text.analyse_capped (limit : Nat) (options : Options) (s : Text) :
    s.analyse (options.capped limit) = s.analyse options := by
  have hscan : s.scan (options.capped limit).limits = s.scan options.limits := by
    rw [scan, scan]
    exact Scan.ofLexemes_congr (by rfl) (by rfl) 0 s.lexemes
  rw [analyse, hscan]
  rfl

/-- What a statement does if there is room for all its code does not depend on the limit. -/
theorem Effect.ofStatement_capped (limit : Nat) (options : Options) (symbols : SymbolTable) (s : Text) :
    ofStatement (options.capped limit) symbols s = ofStatement options symbols s := by
  have hexpression (t : SymbolTable) (e : Text) (use : Operand → List Instruction × Except Error SymbolTable) :
      ofExpression (options.capped limit) t e use = ofExpression options t e use := by
    rw [ofExpression, Text.analyse_capped]
    rfl
  have hparse : Statement.parse (options.capped limit).limits s = Statement.parse options.limits s := rfl
  simp only [ofStatement, hparse, hexpression]

namespace Compilation

/-- Whether some statement ran out of instructions. -/
def IsCut (c : Compilation) : Prop :=
  ∃ d ∈ c.diagnostics.toList, ∃ limit, d.error = .tooMany .instructions limit

theorem isCut_process (c : Compilation) (s : Text) :
    (c.process s).IsCut ↔ c.IsCut ∨ c.room < (c.effect s).code.length := by
  rw [← c.exists_tooMany_errors s c.options.limits.instructions, IsCut, IsCut, diagnostics_process]
  simp only [List.mem_append, List.mem_map, or_and_right, exists_or]
  refine or_congr_right ⟨?_, ?_⟩
  · rintro ⟨d, ⟨e, he, rfl⟩, hlimit⟩
    exact ⟨e, he, hlimit⟩
  · rintro ⟨e, he, hlimit⟩
    exact ⟨_, ⟨e, he, rfl⟩, hlimit⟩

end Compilation

/-- The state of a run with the limit `n` beside the state of one with the limit `m`, all else equal. -/
structure Truncates (options : Options) (n m : Nat) (c d : Compilation) : Prop where
  options_left : c.options = options.capped n
  options_right : d.options = options.capped m
  code : c.code.toList = d.code.toList.take n
  symbols : c.symbols.Alike d.symbols
  whole : ¬c.IsCut → c.code = d.code ∧ c.symbols = d.symbols ∧ c.diagnostics = d.diagnostics
  full : c.IsCut → c.code.size = n

namespace Truncates

variable {options : Options} {n m : Nat} {c d : Compilation}

private theorem room_left (h : Truncates options n m c d) : c.room = n - d.code.size := by
  have hsize := congrArg List.length h.code
  rw [List.length_take, Array.length_toList, Array.length_toList] at hsize
  have hroom : c.room = n - c.code.size := by rw [Compilation.room, h.options_left]; rfl
  omega

private theorem room_right (h : Truncates options n m c d) : d.room = m - d.code.size := by
  rw [Compilation.room, h.options_right]
  rfl

theorem alike_effect (h : Truncates options n m c d) (s : Text) : (c.effect s).Alike (d.effect s) := by
  rw [Compilation.effect, Compilation.effect, h.options_left, h.options_right, Effect.ofStatement_capped,
    Effect.ofStatement_capped]
  exact Effect.alike_ofStatement h.symbols options s

/-- As long as the smaller limit is not reached, a statement has the same effect in both runs. -/
theorem process_of_fits (h : Truncates options n m c d) (hnm : n ≤ m) {s : Text} (hc : ¬c.IsCut)
    (hfit : (c.effect s).code.length ≤ c.room) :
    (c.process s).code = (d.process s).code ∧ (c.process s).symbols = (d.process s).symbols ∧
      (c.process s).diagnostics = (d.process s).diagnostics := by
  obtain ⟨hcode, hsymbols, hdiagnostics⟩ := h.whole hc
  have heffect : c.effect s = d.effect s := by
    rw [Compilation.effect, Compilation.effect, h.options_left, h.options_right, Effect.ofStatement_capped,
      Effect.ofStatement_capped, hsymbols]
  have hfit' : (d.effect s).code.length ≤ d.room := by
    rw [h.room_left] at hfit
    rw [h.room_right, ← heffect]
    omega
  have hout : (c.effect s).outcome c.options.limits.instructions c.room =
      (d.effect s).outcome d.options.limits.instructions d.room := by
    rw [Effect.outcome, Effect.outcome, if_pos hfit, if_pos hfit', heffect]
  refine ⟨Array.toList_inj.1 ?_, ?_, Array.toList_inj.1 ?_⟩
  · rw [Compilation.code_process, Compilation.code_process, hcode, List.take_of_length_le hfit,
      List.take_of_length_le hfit', heffect]
  · rw [Compilation.symbols_process, Compilation.symbols_process, Effect.table, Effect.table, hout, heffect]
  · rw [Compilation.diagnostics_process, Compilation.diagnostics_process, hdiagnostics, Effect.errors, Effect.errors,
      hout, heffect]

theorem process (h : Truncates options n m c d) (hnm : n ≤ m) (s : Text) :
    Truncates options n m (c.process s) (d.process s) where
  options_left := (c.options_process s).trans h.options_left
  options_right := (d.options_process s).trans h.options_right
  code := by
    rw [Compilation.code_process, Compilation.code_process, (h.alike_effect s).code, List.take_append,
      List.take_take, h.code, h.room_left, h.room_right, Array.length_toList]
    congr 2
    omega
  symbols := by
    rw [Compilation.symbols_process, Compilation.symbols_process]
    exact (Effect.alike_table ..).trans ((h.alike_effect s).declared.trans (Effect.alike_table ..).symm)
  whole hcut := by
    rw [Compilation.isCut_process, not_or, Nat.not_lt] at hcut
    exact h.process_of_fits hnm hcut.1 hcut.2
  full hcut := by
    have hle : c.code.toList.length ≤ n := by
      rw [h.code]
      exact List.length_take_le n _
    have hroom : c.room = n - c.code.toList.length := by rw [Compilation.room, h.options_left]; rfl
    rw [← Array.length_toList, Compilation.code_process, List.length_append, List.length_take]
    rcases (c.isCut_process s).1 hcut with hbefore | hnow
    · have hfull := h.full hbefore
      rw [← Array.length_toList] at hfull
      omega
    · omega

theorem processAll (h : Truncates options n m c d) (hnm : n ≤ m) (statements : List Text) :
    Truncates options n m (c.processAll statements) (d.processAll statements) := by
  induction statements generalizing c d with
  | nil => exact h
  | cons s rest ih => exact ih (h.process hnm s)

end Truncates

namespace Compilation

private theorem truncates_opening (options : Options) (n m : Nat) (program : Text) :
    Truncates options n m (opening (options.capped n) program) (opening (options.capped m) program) := by
  have hcut : ¬(opening (options.capped n) program).IsCut := by
    rintro ⟨d, hd, limit, hlimit⟩
    rw [diagnostics_opening] at hd
    split at hd
    · cases hd
    · rw [List.mem_singleton.1 hd] at hlimit
      cases hlimit
  have hdiagnostics : (opening (options.capped n) program).diagnostics =
      (opening (options.capped m) program).diagnostics := by
    rw [← Array.toList_inj, diagnostics_opening, diagnostics_opening]
  have hcode : (opening (options.capped n) program).code = (opening (options.capped m) program).code := by
    rw [← Array.toList_inj, code_opening, code_opening]
  have hsymbols : (opening (options.capped n) program).symbols = (opening (options.capped m) program).symbols := by
    rw [symbols_opening, symbols_opening]
    rfl
  refine ⟨options_opening .., options_opening .., ?_, hsymbols ▸ .refl _, fun _ => ⟨hcode, hsymbols, hdiagnostics⟩,
    fun h => absurd h hcut⟩
  rw [code_opening, code_opening, List.take_nil]

/-- With a smaller limit on instructions a program has the beginning of its code, and the same variables at the same
offsets.  It has all its code, and the same values and diagnostics, if no statement is said to run out of instructions;
and if one is, then the code is as long as the limit. -/
theorem ofProgram_capped (options : Options) (program : Text) {n m : Nat} (h : n ≤ m) :
    let c := ofProgram (options.capped n) program
    let d := ofProgram (options.capped m) program
    c.code.toList = d.code.toList.take n ∧ c.symbols.layout = d.symbols.layout ∧
      (¬c.IsCut → c.code = d.code ∧ c.symbols = d.symbols ∧ c.diagnostics = d.diagnostics) ∧
      (c.IsCut → c.code.size = n) := by
  intro c d
  have htruncates : Truncates options n m c d :=
    (truncates_opening options n m program).processAll h program.normalizeSpace.statements
  exact ⟨htruncates.code, htruncates.symbols.layout, htruncates.whole, htruncates.full⟩

/-- The limit cuts the last of three declarations behind its first instruction. -/
theorem ofProgram_capped_seven :
    let program := "int a = 1; int b = 2; int c = a;".toList
    let c := ofProgram (Options.capped 7 {}) program
    let d := ofProgram (Options.capped 9 {}) program
    d.code.size = 9 ∧ c.code.toList = d.code.toList.take 7 ∧ c.symbols.layout = d.symbols.layout ∧ c.IsCut ∧
      c.code.size = 7 := by
  intro program c d
  have hcut : c.IsCut := by
    refine ⟨{ error := .tooMany .instructions 7, statement := some "int c = a".toList }, ?_, 7, rfl⟩
    decide +kernel
  obtain ⟨hcode, hlayout, -, hfull⟩ := ofProgram_capped {} program (show 7 ≤ 9 by decide)
  exact ⟨by decide +kernel, hcode, hlayout, hcut, hfull hcut⟩

end Compilation

end ArithMips
