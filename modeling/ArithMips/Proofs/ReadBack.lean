import ArithMips.Proofs.Contribution

/-!
# Reading variables back

A declaration takes for its name all that stands before the first space or `=`, and checks the first character and the
length only (`Statement.startsName_of_parse`).  In an expression a name is a word: letters, digits and underscores.  So
a variable whose name is a word can be read back, and one with another character in its name cannot be named in any
expression (`Compilation.expression_name_of_mem`).
-/

namespace ArithMips

/-! ### Names in declarations -/

theorem Statement.startsName_of_parse {limits : Limits} {s x e : Text}
    (h : parse limits s = .ok (.declaration x e)) : startsName x = true ∧ x.length ≤ limits.identifierLength := by
  rw [parse] at h
  split at h
  · cases h
  · split at h
    · rw [parseDeclaration] at h
      split at h
      · cases h
      · dsimp only at h
        split at h
        · cases h
        · next hstart =>
          split at h
          · cases h
          · next hlong =>
            cases h
            exact ⟨by simpa using hstart, Nat.le_of_not_lt hlong⟩
    · cases h

private theorem Text.isIdentifier_of_startsName {x : Text} (hstart : Statement.startsName x = true)
    (hword : ∀ ch ∈ x, isWordChar ch = true) : x.isIdentifier = true := by
  cases x with
  | nil => cases hstart
  | cons ch rest =>
    have hrest : rest.all isWordChar = true := by
      rw [List.all_eq_true]
      intro d hd
      exact hword d (List.mem_cons_of_mem _ hd)
    rw [isIdentifier, hrest, Bool.and_true]
    exact hstart

namespace Compilation

/-- What declarations ask of a name holds of the names in the table. -/
theorem forall_layout_process {P : Text → Prop} {c : Compilation} {s : Text} (h : ∀ p ∈ c.symbols.layout, P p.1)
    (hparse : ∀ x e, Statement.parse c.options.limits s = .ok (.declaration x e) → P x) :
    ∀ p ∈ (c.process s).symbols.layout, P p.1 := by
  rw [layout_process]
  intro p hp
  rcases Effect.declared_ofStatement c.options c.symbols s (c.effect s) rfl with hd | ⟨x, e, hx, hd⟩
  · rw [hd] at hp
    exact h p hp
  · rcases SymbolTable.declare_cases hd with ⟨hsame, -⟩ | ⟨hadd, -, -⟩
    · rw [hsame] at hp
      exact h p hp
    · rw [hadd, SymbolTable.layout, SymbolTable.add, List.map_append] at hp
      rcases List.mem_append.1 hp with hp | hp
      · exact h p hp
      · rw [List.mem_singleton.1 hp]
        exact hparse x e hx

/-- Every variable has a name that starts as names do and is not too long. -/
def Named (c : Compilation) : Prop :=
  ∀ p ∈ c.symbols.layout, Statement.startsName p.1 = true ∧ p.1.length ≤ c.options.limits.identifierLength

theorem Named.process {c : Compilation} (h : c.Named) (s : Text) : (c.process s).Named := by
  unfold Named
  rw [options_process]
  exact forall_layout_process
    (P := fun x => Statement.startsName x = true ∧ x.length ≤ c.options.limits.identifierLength) h
    fun x e hparse => Statement.startsName_of_parse hparse

theorem Named.processAll {c : Compilation} (h : c.Named) (statements : List Text) :
    (c.processAll statements).Named := by
  induction statements generalizing c with
  | nil => exact h
  | cons s rest ih => exact ih (h.process s)

private theorem named_ofProgram (options : Options) (program : Text) : (ofProgram options program).Named := by
  rw [ofProgram_eq]
  apply Named.processAll
  unfold Named
  rw [symbols_opening]
  intro p hp
  cases hp

end Compilation

/-! ### Names in expressions -/

/-- A word on its own is an expression that names a variable. -/
private theorem Text.analyse_name {options : Options} {x : Text} (hx : x.isIdentifier = true)
    (hlength : x.length ≤ options.limits.identifierLength) (htokens : 1 ≤ options.limits.tokens) :
    (x.analyse options).skipped = [] ∧ (x.analyse options).result = .ok [.name x] := by
  have hspelled : Spelled [.name x] x := by
    have hcons := @Spelled.cons (.name x) [] [] x [] (by intro c hc; cases hc) (.name hx) (by intro h; cases h) .nil
    simpa using hcons
  have hscan : x.scan options.limits = { skipped := [], result := .ok [.name x, .stop] } := by
    apply hspelled.scan
    · exact List.isChain_singleton _
    · intro y hy
      cases List.mem_singleton.1 hy
      exact hlength
    · exact htokens
  apply analyse_of_scan hscan
  cases options.strictParens <;> rfl

private theorem Lexeme.ofChar_ne_word (c : Char) (x : Text) : ofChar c ≠ .word x := by
  unfold ofChar
  repeat' split
  all_goals
    intro h
    cases h

private theorem Text.isIdentifier_of_mem_lexemes {s x : Text} (h : .word x ∈ s.lexemes) : x.isIdentifier = true := by
  fun_induction lexemes s with
  | case1 => cases h
  | case2 c cs hc ih =>
    rcases List.mem_cons.1 h with h | h
    · cases h
    · exact ih h
  | case3 c cs hc hm ih =>
    rcases List.mem_cons.1 h with h | h
    · cases h
    · exact ih h
  | case4 c cs hc hm hw ih =>
    rcases List.mem_cons.1 h with h | h
    · cases h
      rw [isIdentifier, hw, Bool.true_and]
      exact List.all_takeWhile
    · exact ih h
  | case5 c cs hc hm hw ih =>
    rcases List.mem_cons.1 h with h | h
    · exact absurd h.symm (Lexeme.ofChar_ne_word c x)
    · exact ih h

private theorem Lexeme.eq_word_of_read {limits : Limits} {l : Lexeme} {x : Text}
    (h : l.read limits = .token (.name x)) :
    l = .word x := by
  cases l with
  | space | operator | lparen | rparen | unknown => cases h
  | numeral negative digits =>
    rw [read] at h
    split at h <;> cases h
  | word y =>
    rw [read] at h
    split at h
    · cases h
    · cases h
      rfl

private theorem Scan.word_mem_of_name_mem {limits : Limits} {count : Nat} {ls : List Lexeme} {tokens : List Token}
    {x : Text} (h : (ofLexemes limits count ls).result = .ok tokens) (hx : .name x ∈ tokens) : .word x ∈ ls := by
  induction ls generalizing count tokens with
  | nil =>
    cases h
    cases List.mem_singleton.1 hx
  | cons l rest ih =>
    rcases ofLexemes_cons_eq_ok h with hrest | ⟨t, us, ht, rfl, hrest⟩
    · exact List.mem_cons_of_mem _ (ih hrest hx)
    · rcases List.mem_cons.1 hx with heq | hmem
      · rw [← heq] at ht
        rw [Lexeme.eq_word_of_read ht]
        exact List.mem_cons_self
      · exact List.mem_cons_of_mem _ (ih hrest hmem)

/-- Every name in an expression is a word. -/
private theorem Text.isIdentifier_of_mem_scan {limits : Limits} {s x : Text} {tokens : List Token}
    (h : (s.scan limits).result = .ok tokens) (hx : .name x ∈ tokens) : x.isIdentifier = true :=
  isIdentifier_of_mem_lexemes (Scan.word_mem_of_name_mem h hx)

/-! ### Variables as expressions -/

private theorem plan_name {symbols : SymbolTable} {x : Text} {v : Variable} (h : symbols.find? x = some v)
    (r : UInt32) :
    plan symbols r [.name x] [] =
      { code := [.ld ⟨r⟩ x v.offset], result := .ok { register := ⟨r⟩, value := v.value } } := by
  have htoken : lowerToken symbols ⟨r⟩ (.name x) [] =
      .ok { operand := ⟨⟨r⟩, v.value⟩, code := [.ld ⟨r⟩ x v.offset], rest := [] } := by rw [lowerToken, h]
  rw [plan_cons_of_ok htoken]
  rfl

namespace Compilation

/-- A variable whose name is a word is an expression with its value, as long as there is room for an instruction; and
no expression names a variable with another character in its name. -/
theorem expression_name_of_mem {options : Options} (htokens : 1 ≤ options.limits.tokens) {program : Text} {v : Variable}
    (hv : v ∈ (ofProgram options program).symbols.entries) :
    ((∀ ch ∈ v.name, Text.isWordChar ch = true) →
        (ofProgram options program).code.size < options.limits.instructions →
          ∃ c, Compile.expression v.name (ofProgram options program) =
              (.ok { register := ⟨1⟩, value := v.value }, c) ∧
            c.diagnostics = (ofProgram options program).diagnostics) ∧
      ((∃ ch ∈ v.name, Text.isWordChar ch = false) →
        ∀ (limits : Limits) (s : Text) (tokens : List Token), (s.scan limits).result = .ok tokens →
          .name v.name ∉ tokens) := by
  constructor
  · intro hword hsize
    have hoptions := options_ofProgram options program
    obtain ⟨hstart, hlength⟩ := named_ofProgram options program (v.name, v.offset) (List.mem_map.2 ⟨v, hv, rfl⟩)
    rw [hoptions] at hlength
    have hx := Text.isIdentifier_of_startsName hstart hword
    obtain ⟨hskipped, hanalysed⟩ := Text.analyse_name hx hlength htokens
    have hplan := plan_name ((wellFormed_ofProgram options program).find?_name hv) 1
    have hroom : 1 ≤ (ofProgram options program).room := by
      rw [room, hoptions]
      exact Nat.sub_pos_of_lt hsize
    have hok : (Compile.expression v.name (ofProgram options program)).1 =
        .ok { register := ⟨1⟩, value := v.value } := by
      rw [Compile.fst_expression_eq_ok, hoptions]
      refine ⟨[.name v.name], hanalysed, ?_, ?_⟩
      · rw [hplan]
        exact hroom
      · rw [hplan]
    refine ⟨_, Prod.ext hok rfl, Array.toList_inj.1 ?_⟩
    rw [(Compile.expression_keeps v.name _).2, hoptions, hskipped, List.map_nil, List.append_nil]
  · rintro ⟨ch, hch, hother⟩ limits s tokens hscan hmem
    have hword := Text.isWordChar_of_mem (Text.isIdentifier_of_mem_scan hscan hmem) ch hch
    rw [hother] at hword
    cases hword

/-- Of two variables one can be read back. -/
theorem expression_name_of_mem_underscore :
    let c := ofProgram {} "int _a1 = 5; int a+b = _a1 * 2;".toList
    (∃ d, Compile.expression "_a1".toList c = (.ok { register := ⟨1⟩, value := 5 }, d) ∧
        d.diagnostics = c.diagnostics) ∧
      ∀ (limits : Limits) (s : Text) (tokens : List Token), (s.scan limits).result = .ok tokens →
        .name "a+b".toList ∉ tokens := by
  intro c
  have hword : ({ name := "_a1".toList, value := 5, offset := 8, declared := true } : Variable) ∈
      c.symbols.entries := by
    decide +kernel
  have hother : ({ name := "a+b".toList, value := 10, offset := 16, declared := true } : Variable) ∈
      c.symbols.entries := by
    decide +kernel
  exact ⟨(expression_name_of_mem (by decide) hword).1 (by simp [Text.isWordChar]) (by decide +kernel),
    (expression_name_of_mem (by decide) hother).2 ⟨'+', by decide +kernel, by decide +kernel⟩⟩

/-- A variable that was declared under the name `a+b` is read as a sum. -/
theorem expression_of_sum_name :
    let c := ofProgram {} "int a+b=1;".toList
    1 ≤ c.options.limits.tokens ∧ c.code.size < c.options.limits.instructions ∧
      ({ name := "a+b".toList, value := 1, offset := 8, declared := true } : Variable) ∈ c.symbols.entries ∧
      (Compile.expression "a+b".toList c).1 = .error (.undeclared "a".toList) := by
  decide +kernel

end Compilation

end ArithMips
