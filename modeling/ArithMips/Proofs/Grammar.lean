import ArithMips.Proofs.Polish
import Mathlib.Data.List.Chain

/-!
# Alternation of operands and operators

The tokens of an infix expression alternate (`alternates_of_writes`): an operand is due at the start, behind an
operator and behind a `(`, and no operand directly follows another one (`Token.Apart`).  Conversely:

* tokens that alternate and whose parentheses match write an expression (`exists_writes`); they are read from left
  to right, with a stack of sums that are still open;
* where no operand directly follows another one, tokens alternate as soon as they have one operand more than
  operators (`alternates_of_countP`).
-/

namespace ArithMips

namespace Token

/-- Whether an operand may end with a token. -/
def endsOperand : Token → Bool
  | literal _ | name _ | rparen => true
  | _ => false

/-- Whether an operand may start with a token. -/
def startsOperand : Token → Bool
  | literal _ | name _ | lparen => true
  | _ => false

/-- Two tokens that may be neighbours: an operand does not directly follow another one. -/
def Apart (a b : Token) : Prop := ¬(a.endsOperand = true ∧ b.startsOperand = true)

instance (a b : Token) : Decidable (Apart a b) := inferInstanceAs (Decidable (¬_))

/-- Whether operands and operators alternate, parentheses apart.  The first argument says whether an operand is
due. -/
def alternates (due : Bool) : List Token → Bool
  | [] => !due
  | .literal _ :: ts => due && alternates false ts
  | .name _ :: ts => due && alternates false ts
  | .lparen :: ts => due && alternates true ts
  | .operator _ :: ts => !due && alternates true ts
  | .rparen :: ts => !due && alternates false ts
  | .stop :: _ => false

end Token

open Token (Apart alternates)

/-! ### Counting operands -/

private theorem countP_cons_operand {t : Token} (h : t.isOperand = true) (ts : List Token) :
    (t :: ts).countP Token.isOperand = ts.countP Token.isOperand + 1 ∧
      (t :: ts).countP Token.isOperator = ts.countP Token.isOperator := by
  cases t with
  | literal | name => simp [List.countP_cons, Token.isOperand, Token.isOperator]
  | operator | lparen | rparen | stop => cases h

private theorem countP_cons_operator (op : Operator) (ts : List Token) :
    (.operator op :: ts).countP Token.isOperand = ts.countP Token.isOperand ∧
      (.operator op :: ts).countP Token.isOperator = ts.countP Token.isOperator + 1 := by
  simp [List.countP_cons, Token.isOperand, Token.isOperator]

private theorem countP_cons_paren {t : Token} (h : t = .lparen ∨ t = .rparen) (ts : List Token) :
    (t :: ts).countP Token.isOperand = ts.countP Token.isOperand ∧
      (t :: ts).countP Token.isOperator = ts.countP Token.isOperator := by
  rcases h with rfl | rfl <;> simp [Token.isOperand, Token.isOperator]

/-- Every place where tokens fail to alternate costs an operand. -/
theorem alternates_of_countP {ts : List Token} (hstop : .stop ∉ ts) (hchain : ts.IsChain Apart) (due : Bool)
    (hhead : due = false → ∀ t ∈ ts.head?, t.startsOperand = false) :
    ts.countP Token.isOperand ≤ ts.countP Token.isOperator + due.toNat ∧
      (ts.countP Token.isOperand = ts.countP Token.isOperator + due.toNat → alternates due ts = true) := by
  induction ts generalizing due with
  | nil => cases due <;> exact ⟨by decide, fun h => by first | rfl | cases h⟩
  | cons t ts ih =>
    simp only [List.mem_cons, not_or] at hstop
    obtain ⟨hnext, htail⟩ := List.isChain_cons.1 hchain
    -- Behind an operand the tokens go on with no operand due, behind any other token one is due.
    have hdue := ih hstop.2 htail true (by simp)
    have hdone : t.endsOperand = true → _ := fun ht =>
      ih hstop.2 htail false fun _ u hu => Bool.eq_false_iff.2 fun hu' => hnext u hu ⟨ht, hu'⟩
    simp only [Bool.toNat_true, Bool.toNat_false] at hdue hdone
    cases t with
    | stop => exact absurd rfl hstop.1
    | literal value =>
      obtain ⟨hle, halt⟩ := hdone rfl
      obtain ⟨ho, hp⟩ := countP_cons_operand (t := .literal value) rfl ts
      cases due with
      | false => cases hhead rfl _ rfl
      | true => exact ⟨by simp; omega, fun h => halt (by simp at h; omega)⟩
    | name identifier =>
      obtain ⟨hle, halt⟩ := hdone rfl
      obtain ⟨ho, hp⟩ := countP_cons_operand (t := .name identifier) rfl ts
      cases due with
      | false => cases hhead rfl _ rfl
      | true => exact ⟨by simp; omega, fun h => halt (by simp at h; omega)⟩
    | lparen =>
      obtain ⟨ho, hp⟩ := countP_cons_paren (.inl rfl) ts
      cases due with
      | false => cases hhead rfl _ rfl
      | true => exact ⟨by simp; omega, fun h => hdue.2 (by simp at h; omega)⟩
    | rparen =>
      obtain ⟨hle, halt⟩ := hdone rfl
      obtain ⟨ho, hp⟩ := countP_cons_paren (.inr rfl) ts
      cases due with
      | false => exact ⟨by simp; omega, fun h => halt (by simp at h; omega)⟩
      | true => exact ⟨by simp; omega, fun h => by simp at h; omega⟩
    | operator op =>
      obtain ⟨ho, hp⟩ := countP_cons_operator op ts
      cases due with
      | false => exact ⟨by simp; omega, fun h => hdue.2 (by simp at h; omega)⟩
      | true => exact ⟨by simp; omega, fun h => by simp at h; omega⟩

/-! ### Reading from left to right -/

/-- Tokens that write some expression at a level of the grammar. -/
def Level.Derives (l : Level) (ts : List Token) : Prop := ∃ e, Writes l e ts

/-- Tokens that end with an operand while `n` parentheses are open: what stands behind the innermost one is a sum,
and what stands before it lacks a factor. -/
def Complete : Nat → List Token → Prop
  | 0, ts => Level.sum.Derives ts
  | n + 1, ts => ∃ before us, ts = before ++ .lparen :: us ∧
      (∀ vs, Level.factor.Derives vs → Complete n (before ++ vs)) ∧ Level.sum.Derives us

/-- Tokens that lack a factor while `n` parentheses are open. -/
def Awaits (n : Nat) (ts : List Token) : Prop := ∀ vs, Level.factor.Derives vs → Complete n (ts ++ vs)

private theorem Writes.snoc {e f : Expr} {ts us : List Token} (h : Writes .sum e ts) (op : Operator)
    (hf : Writes .factor f us) : Level.sum.Derives (ts ++ .operator op :: us) := by
  rcases op.sum_or_product with hop | hop
  · exact ⟨_, .addition hop h hf.term⟩
  · -- The operator belongs to the last term of the sum.
    cases h with
    | sum h => exact ⟨_, .sum (.product hop h hf)⟩
    | addition hop' hl hr =>
      rw [List.append_assoc, List.cons_append]
      exact ⟨_, .addition hop' hl (.product hop hr hf)⟩

private theorem awaits_nil : Awaits 0 [] := fun _ ⟨e, h⟩ => ⟨e, h.term.sum⟩

theorem Awaits.lparen {n : Nat} {ts : List Token} (h : Awaits n ts) : Awaits (n + 1) (ts ++ [.lparen]) := by
  rintro vs ⟨e, he⟩
  exact ⟨ts, vs, by simp, h, e, he.term.sum⟩

theorem Complete.rparen {n : Nat} {ts : List Token} (h : Complete (n + 1) ts) : Complete n (ts ++ [.rparen]) := by
  obtain ⟨before, us, rfl, hbefore, e, he⟩ := h
  have hfactor := hbefore _ ⟨e, he.paren⟩
  simpa using hfactor

theorem Complete.operator {n : Nat} {ts : List Token} (h : Complete n ts) (op : Operator) :
    Awaits n (ts ++ [.operator op]) := by
  rintro vs ⟨f, hf⟩
  cases n with
  | zero =>
    obtain ⟨e, he⟩ := h
    rw [List.append_assoc]
    exact he.snoc op hf
  | succ n =>
    obtain ⟨before, us, rfl, hbefore, e, he⟩ := h
    exact ⟨before, us ++ .operator op :: vs, by simp, hbefore, he.snoc op hf⟩

/-- The tokens `before` have been read, the tokens `ts` are ahead. -/
private theorem complete_append {ts : List Token} {n : Nat} (hcloses : Polish.closes n ts = true) (due : Bool)
    (halt : alternates due ts = true) {before : List Token}
    (h : if due then Awaits n before else Complete n before) : Complete 0 (before ++ ts) := by
  induction ts generalizing n due before with
  | nil =>
    cases due with
    | true => cases halt
    | false =>
      obtain rfl : n = 0 := by simpa [Polish.closes] using hcloses
      simpa using h
  | cons t ts ih =>
    rw [← List.singleton_append, ← List.append_assoc]
    cases due with
    | true =>
      cases t with
      | literal value => exact ih hcloses false halt (h _ ⟨_, .literal value⟩)
      | name identifier => exact ih hcloses false halt (h _ ⟨_, .name identifier⟩)
      | lparen => exact ih hcloses true halt (Awaits.lparen h)
      | operator | rparen | stop => cases halt
    | false =>
      cases t with
      | operator op => exact ih hcloses true halt (Complete.operator h op)
      | rparen =>
        cases n with
        | zero => cases hcloses
        | succ n => exact ih hcloses false halt (Complete.rparen h)
      | literal | name | lparen | stop => cases halt

theorem exists_writes {ts : List Token} (hcloses : Polish.closes 0 ts = true) (halt : alternates true ts = true) :
    ∃ e, Writes .sum e ts :=
  complete_append hcloses true halt awaits_nil

/-! ### Written tokens alternate -/

private theorem alternates_append_of_writes {l : Level} {e : Expr} {ts : List Token} (h : Writes l e ts)
    (rest : List Token) : alternates true (ts ++ rest) = alternates false rest := by
  induction h generalizing rest with
  | literal | name => rfl
  | paren _ ih =>
    rw [List.append_assoc, List.cons_append]
    exact ih (.rparen :: rest)
  | term _ ih | sum _ ih => exact ih rest
  | product _ _ _ ihl ihr | addition _ _ _ ihl ihr =>
    rw [List.append_assoc, ihl]
    exact ihr rest

theorem alternates_of_writes {e : Expr} {ts : List Token} (h : Writes .sum e ts) : alternates true ts = true := by
  have hnil := alternates_append_of_writes h []
  rwa [List.append_nil] at hnil

theorem isChain_of_alternates {ts : List Token} {due : Bool} (h : alternates due ts = true) :
    ts.IsChain Apart ∧ (due = false → ∀ t ∈ ts.head?, t.startsOperand = false) := by
  induction ts generalizing due with
  | nil => exact ⟨.nil, fun _ t ht => by cases ht⟩
  | cons t ts ih =>
    -- Behind an operand the rest may not start with one, behind any other token it may.
    have hbehind : alternates false ts = true → (t :: ts).IsChain Apart := by
      intro hts
      obtain ⟨hchain, hhead⟩ := ih hts
      refine hchain.cons fun u hu => ?_
      rintro ⟨-, hu'⟩
      rw [hhead rfl u hu] at hu'
      cases hu'
    have hbefore : alternates true ts = true → t.endsOperand = false → (t :: ts).IsChain Apart := by
      intro hts ht
      refine (ih hts).1.cons fun u _ => ?_
      rintro ⟨ht', -⟩
      rw [ht] at ht'
      cases ht'
    have hhead : t.startsOperand = false → due = false → ∀ u ∈ (t :: ts).head?, u.startsOperand = false := by
      rintro ht - u hu
      cases hu
      exact ht
    cases due with
    | true =>
      cases t with
      | literal | name => exact ⟨hbehind h, fun hdue => by cases hdue⟩
      | lparen => exact ⟨hbefore h rfl, fun hdue => by cases hdue⟩
      | operator | rparen | stop => cases h
    | false =>
      cases t with
      | operator => exact ⟨hbefore h rfl, hhead rfl⟩
      | rparen => exact ⟨hbehind h, hhead rfl⟩
      | literal | name | lparen | stop => cases h

end ArithMips
