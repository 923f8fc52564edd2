import ArithMips.Proofs.Spelling

/-!
# The source language

Programs as lists of commands, apart from how they are written: a command declares a variable with the value of an
expression, or is a bare expression.  `interpret` gives the variables of a program with their values.

`IsSource` says which texts are sources of a program.  Expressions are written by the grammar of infix expressions,
with any parentheses that it allows, and runs of space may stand between any two words.  A statement is read as it was
meant (`Command.IsSource.parse`); that a source is also cut as it was meant is `Command.IsSource.statements`, where
programs are compiled.
-/

namespace ArithMips

/-- An expression with the tokens that write it. -/
structure Written where
  expr : Expr
  tokens : List Token
  writes : Writes .sum expr tokens

/-- The statements of the language. -/
inductive Command where
  | declaration (name : Text) (value : Written)
  | expression (value : Written)

/-- Variables with their values, in the order in which they were declared first. -/
abbrev Store := List (Text × Int64)

namespace Store

/-- The value of a variable; a variable that is not there yet is zero. -/
def value (σ : Store) (x : Text) : Int64 := (List.lookup x σ).getD 0

/-- Gives a variable its value, at its place or behind the others. -/
def set (x : Text) (value : Int64) : Store → Store
  | [] => [(x, value)]
  | (y, old) :: σ => if y = x then (y, value) :: σ else (y, old) :: set x value σ

end Store

namespace Command

def value : Command → Written
  | declaration _ e => e
  | expression e => e

/-- What a command does to the variables. -/
def run (σ : Store) : Command → Store
  | declaration x e => σ.set x (e.expr.eval σ.value)
  | expression _ => σ

/-- The variables that may be read from a command on. -/
def scope (vars : List Text) : Command → List Text
  | declaration x _ => x :: vars
  | expression _ => vars

end Command

/-- The variables of a program with their values at its end. -/
def interpret (program : List Command) : Store := program.foldl Command.run []

/-- Every variable that is read was declared by the same command or by an earlier one. -/
def Scoped : List Text → List Command → Prop
  | _, [] => True
  | vars, c :: program => (∀ x ∈ c.value.expr.names, x ∈ c.scope vars) ∧ Scoped (c.scope vars) program

/-- The names that a variable may have. -/
structure IsName (limits : Limits) (x : Text) : Prop where
  identifier : x.isIdentifier = true
  ne_keyword : x ≠ "int".toList
  length_le : x.length ≤ limits.identifierLength

/-! ### Sources -/

/-- The sources of a command.  Space must stand behind the keyword and may stand between any two words. -/
inductive Command.IsSource : Command → Text → Prop where
  | declaration {x : Text} {e : Written} {gap₀ gap₁ gap₂ gap₃ s : Text} : gap₀.IsGap → gap₁.IsGap → gap₁ ≠ [] →
      gap₂.IsGap → gap₃.IsGap → Spelled e.tokens s →
      IsSource (.declaration x e) (gap₀ ++ "int".toList ++ gap₁ ++ x ++ gap₂ ++ '=' :: s ++ gap₃)
  | expression {e : Written} {gap s : Text} : gap.IsGap → Spelled e.tokens s → IsSource (.expression e) (s ++ gap)

/-- The sources of a program: a semicolon follows every command. -/
inductive IsSource : List Command → Text → Prop where
  | nil {gap : Text} : gap.IsGap → IsSource [] gap
  | cons {c : Command} {program : List Command} {s t : Text} : c.IsSource s → IsSource program t →
      IsSource (c :: program) (s ++ ';' :: t)

/-! ### Statements of a source -/

theorem IsSource.checkSemicolons {program : List Command} {s : Text} (h : IsSource program s) :
    s.checkSemicolons = .ok () := by
  induction h with
  | nil hgap => exact Text.checkSemicolons_gap hgap
  | cons _ _ ih => rw [Text.checkSemicolons_append, ih]

namespace Spelled

theorem ne_nil {ts : List Token} {s : Text} (h : Spelled ts s) (hts : ts ≠ []) : s ≠ [] := by
  cases h with
  | nil => exact absurd rfl hts
  | cons _ hw => simp [hw.ne_nil]

end Spelled

private theorem takeWhile_of_afterKeyword? {s rest : Text} (h : Statement.afterKeyword? s = some rest) :
    s.head? = some 'i' ∧ s.takeWhile Text.isWordChar = "int".toList := by
  unfold Statement.afterKeyword? at h
  split at h
  · next c u =>
    split at h
    · next hc =>
      have hstop : ∀ d ∈ (c :: u).head?, Text.isWordChar d = false := by
        intro d hd
        cases hd
        exact Text.not_isWordChar_of_isSpace hc
      exact ⟨rfl, (Text.takeWhile_append_of_head (w := "int".toList) (List.all_eq_true.1 (by decide)) hstop).1⟩
    · cases h
  · cases h

/-- A spelling in which no name is the keyword does not start with it. -/
theorem Spelled.afterKeyword?_eq_none {ts : List Token} {s : Text} (h : Spelled ts s)
    (hchain : ts.IsChain Token.Apart) (hnames : ∀ x, .name x ∈ ts → x ≠ "int".toList) :
    Statement.afterKeyword? s = none := by
  by_contra hne
  obtain ⟨rest, hrest⟩ := Option.ne_none_iff_exists'.1 hne
  obtain ⟨hhead, hword⟩ := takeWhile_of_afterKeyword? hrest
  cases h with
  | nil => cases hhead
  | @cons t ts gap w u hgap hw hminus hu =>
    cases gap with
    | cons d gap =>
      cases hhead
      cases hgap _ List.mem_cons_self
    | nil =>
      cases hw with
      | @literal _ negative digits hnil hdigits hvalue =>
        obtain ⟨d, digits, rfl⟩ := List.exists_cons_of_ne_nil hnil
        cases negative with
        | true => cases hhead
        | false =>
          cases hhead
          cases hdigits _ List.mem_cons_self
      | name hx =>
        obtain ⟨hnext, -⟩ := List.isChain_cons.1 hchain
        obtain ⟨htake, -⟩ := Text.takeWhile_append_of_head (Text.isWordChar_of_mem hx)
          (hu.not_isWordChar_behind rfl hnext)
        exact hnames w List.mem_cons_self (htake.symm.trans hword)
      | operator op => cases op <;> cases hhead
      | lparen | rparen => cases hhead

/-- What reading a command gives, if its expression is written by `t`. -/
def Command.statement (t : Text) : Command → Statement
  | declaration x _ => .declaration x t
  | expression _ => .expression t

private theorem Written.tokens_ne_nil (e : Written) : e.tokens ≠ [] := e.writes.ne_nil

theorem Written.isChain (e : Written) : e.tokens.IsChain Token.Apart :=
  (isChain_of_alternates (alternates_of_writes e.writes)).1

theorem mem_names_of_writes {l : Level} {e : Expr} {ts : List Token} (h : Writes l e ts) {x : Text}
    (hx : .name x ∈ ts) : x ∈ e.names := by
  induction h with
  | literal => simp at hx
  | name => simpa [Expr.names] using hx
  | paren _ ih => exact ih (by simpa using hx)
  | term _ ih | sum _ ih => exact ih hx
  | product _ _ _ ihl ihr | addition _ _ _ ihl ihr =>
    rcases List.mem_append.1 hx with hx | hx
    · exact List.mem_append_left _ (ihl hx)
    · exact List.mem_append_right _ (ihr (by simpa using hx))

/-- A declaration behind its keyword is read up to the `=` and from there on. -/
private theorem parseDeclaration_append {limits : Limits} {x gap s : Text} (hx : IsName limits x) (hgap : gap.IsGap) :
    Statement.parseDeclaration limits (x ++ gap ++ '=' :: s) = .ok (.declaration x s.trim) := by
  have hchars := Text.isWordChar_of_mem hx.identifier
  have hassign : '=' ∉ x ++ gap := by
    intro hc
    rcases List.mem_append.1 hc with hc | hc
    · cases hchars '=' hc
    · cases hgap '=' hc
  have hword : ∀ c ∈ x, (!Text.isSpace c) = true := by
    intro c hc
    rw [Text.not_isSpace_of_isWordChar (hchars c hc)]
    rfl
  have hgap' : ∀ c ∈ gap.head?, (!Text.isSpace c) = false := by
    intro c hc
    rw [hgap c (List.mem_of_head? hc)]
    rfl
  have hstart : Statement.startsName x = true := by
    have hid := hx.identifier
    cases x with
    | nil => cases hid
    | cons c x =>
      simp only [Text.isIdentifier, Bool.and_eq_true] at hid
      exact hid.1
  rw [Statement.parseDeclaration_append_cons hassign, (Text.takeWhile_append_of_head hword hgap').1, hstart]
  simp [Nat.not_lt.2 hx.length_le]

private theorem squeeze_declaration {limits : Limits} {x gap₀ gap₁ gap₂ : Text} (hx : IsName limits x)
    (h₀ : gap₀.IsGap) (h₁ : gap₁.IsGap) (hne : gap₁ ≠ []) (h₂ : gap₂.IsGap) (s : Text) :
    ∃ gap gap' : Text, gap.IsGap ∧ gap'.IsGap ∧
      (gap₀ ++ "int".toList ++ gap₁ ++ x ++ gap₂ ++ '=' :: s).squeeze =
        gap ++ ("int".toList ++ ' ' :: (x ++ gap' ++ '=' :: s.squeeze)) := by
  have hword : ∀ c ∈ x, Text.isSpace c = false := fun c hc =>
    Text.not_isSpace_of_isWordChar (Text.isWordChar_of_mem hx.identifier c hc)
  have hxne : x ≠ [] := by
    rintro rfl
    cases hx.identifier
  have hsplit : gap₀ ++ "int".toList ++ gap₁ ++ x ++ gap₂ ++ '=' :: s =
      gap₀ ++ "int".toList ++ (gap₁ ++ x ++ (gap₂ ++ ['='] ++ s)) := by simp
  refine ⟨_, _, Text.isGap_ite (gap₀ = []), Text.isGap_ite (gap₂ = []), ?_⟩
  rw [hsplit, Text.squeeze_gap_word_append h₀ (by decide) (by simp [Text.isSpace]),
    Text.squeeze_gap_word_append h₁ hxne hword, Text.squeeze_gap_word_append h₂ (by simp) (by simp [Text.isSpace]),
    if_neg hne]
  simp

private theorem parse_keyword {limits : Limits} {x gap s : Text} (hx : IsName limits x) (hgap : gap.IsGap)
    (hself : Text.trim ("int".toList ++ ' ' :: (x ++ gap ++ '=' :: s)) =
      "int".toList ++ ' ' :: (x ++ gap ++ '=' :: s)) :
    Statement.parse limits ("int".toList ++ ' ' :: (x ++ gap ++ '=' :: s)) = .ok (.declaration x s.trim) := by
  have hrest : Text.trimStart (' ' :: (x ++ gap ++ '=' :: s)) = x ++ gap ++ '=' :: s := by
    have hid := hx.identifier
    cases x with
    | nil => cases hid
    | cons c x =>
      have hc := Text.not_isWhite_of_isWordChar (Text.isWordChar_of_mem hid c List.mem_cons_self)
      rw [Text.trimStart, List.dropWhile_cons_of_pos (by decide)]
      simp [hc]
  have hkeyword : Statement.afterKeyword? ("int".toList ++ ' ' :: (x ++ gap ++ '=' :: s)) =
      some (x ++ gap ++ '=' :: s) := by
    show (if Text.isSpace ' ' then some (Text.trimStart (' ' :: (x ++ gap ++ '=' :: s))) else none) = _
    rw [hrest]
    rfl
  rw [Statement.parse, hself, if_neg (by simp), hkeyword]
  exact parseDeclaration_append hx hgap

/-- The statement of a source is read as its command. -/
theorem Command.IsSource.parse {c : Command} {s : Text} (h : c.IsSource s) {limits : Limits}
    (hname : ∀ x ∈ c.scope [], IsName limits x) (hreads : ∀ x ∈ c.value.expr.names, x ≠ "int".toList) :
    ∃ t, Spelled c.value.tokens t ∧ Statement.parse limits s.squeeze.trim = .ok (c.statement t) ∧
      s.squeeze.trim ≠ [] := by
  cases h with
  | @expression e gap s hgap hs =>
    obtain ⟨hspelled, hself⟩ := (hs.squeeze hgap).trim
    have hne := hspelled.ne_nil e.tokens_ne_nil
    refine ⟨_, hspelled, ?_, hne⟩
    have hkeyword := hspelled.afterKeyword?_eq_none e.isChain fun x hx => hreads x (mem_names_of_writes e.writes hx)
    rw [Statement.parse, hself, if_neg hne, hkeyword]
    rfl
  | @declaration x e gap₀ gap₁ gap₂ gap₃ s h₀ h₁ hne₁ h₂ h₃ hs =>
    have hx := hname x (by simp [Command.scope])
    have hspelled := hs.squeeze h₃
    obtain ⟨gap, gap', hgap, hgap', heq⟩ := squeeze_declaration hx h₀ h₁ hne₁ h₂ (s ++ gap₃)
    rw [← List.cons_append, ← List.append_assoc] at heq
    have hself : Text.trim ("int".toList ++ ' ' :: (x ++ gap' ++ '=' :: (s ++ gap₃).squeeze)) =
        "int".toList ++ ' ' :: (x ++ gap' ++ '=' :: (s ++ gap₃).squeeze) := by
      refine Text.trim_eq_self (by intro c hc; cases hc; decide) fun c hc => hspelled.not_isWhite_getLast c ?_
      -- The last character is that of the expression.
      have hsplit : "int".toList ++ ' ' :: (x ++ gap' ++ '=' :: (s ++ gap₃).squeeze) =
          ("int".toList ++ ' ' :: (x ++ gap' ++ ['='])) ++ (s ++ gap₃).squeeze := by simp
      rw [hsplit, List.getLast?_append_of_ne_nil _ (hspelled.ne_nil e.tokens_ne_nil)] at hc
      exact hc
    rw [heq, Text.trim_gap_append hgap, hself]
    exact ⟨_, hspelled.trim.1, parse_keyword hx hgap' hself, by simp⟩

theorem Command.IsSource.semicolon_notMem {c : Command} {s : Text} (h : c.IsSource s) {limits : Limits}
    (hname : ∀ x ∈ c.scope [], IsName limits x) : ';' ∉ s := by
  cases h with
  | expression hgap hs =>
    simp only [List.mem_append, not_or]
    exact ⟨hs.semicolon_notMem, Text.semicolon_notMem_gap hgap⟩
  | @declaration x _ _ _ _ _ _ h₀ h₁ _ h₂ h₃ hs =>
    have hx : ';' ∉ x := fun hc => by
      cases Text.isWordChar_of_mem (hname x (by simp [Command.scope])).identifier _ hc
    simp [Text.semicolon_notMem_gap h₀, Text.semicolon_notMem_gap h₁, Text.semicolon_notMem_gap h₂,
      Text.semicolon_notMem_gap h₃, hs.semicolon_notMem, hx]

end ArithMips
