import ArithMips.Token.Grammar
import ArithMips.Token.Polish
import Mathlib.Data.List.Perm.Basic
import Mathlib.Data.List.TakeWhile

/-!
# Reordering of tokens

What `Polish.ofTokens` does to any list of tokens, and what it does to those that write an expression.

* Tokens behind the first end mark do not count (`ofTokens_takeWhile`).
* Operands keep their order, operators are permuted and parentheses are dropped (`filter_isOperand_ofTokens`,
  `filter_isOperator_ofTokens`), also when parentheses do not match.
* Parentheses match if and only if a count of the open ones never falls below zero and ends at zero
  (`balanced_ofTokens`).
* The tokens that write a tree become its postorder (`ofTokens_of_writes`).  The invariant: when the tokens of a level
  of the grammar have been read, a part of the postorder is in the output, and the operators that are missing from
  it wait on top of the stack, none of which binds less tightly than the level (`Reorders`).
-/

namespace ArithMips

/-- The least precedence of an operator outside of parentheses, where a factor has none. -/
def Level.precedence : Level → Nat
  | .factor => 3
  | .term => 2
  | .sum => 1

namespace Polish

/-- Puts tokens in front of the output. -/
def emit (out : List Token) (p : Polish) : Polish := { p with output := out ++ p.output }

private theorem prepend_eq_emit (ops : List Operator) (p : Polish) : p.prepend ops = p.emit (ops.map .operator) := rfl

private theorem emit_emit (out out' : List Token) (p : Polish) : (p.emit out').emit out = p.emit (out ++ out') := by
  simp [emit]

/-- The tokens of the operators on a stack, from the top. -/
def waiting : List Waiting → List Token
  | [] => []
  | .paren :: stack => waiting stack
  | .operator op :: stack => .operator op :: waiting stack

/-- The number of open parentheses on a stack. -/
def depth : List Waiting → Nat
  | [] => 0
  | .paren :: stack => depth stack + 1
  | .operator _ :: stack => depth stack

/-! ### The parts of the stack -/

theorem close_spec {stack : List Waiting} {ops : List Operator} {below : Option (List Waiting)}
    (h : close stack = (ops, below)) :
    waiting stack = ops.map .operator ++ waiting (below.getD []) ∧
      depth stack = (below.map fun b => depth b + 1).getD 0 := by
  induction stack generalizing ops with
  | nil =>
    cases h
    exact ⟨rfl, rfl⟩
  | cons w stack ih =>
    cases w with
    | paren =>
      cases h
      exact ⟨rfl, rfl⟩
    | operator op =>
      rcases hc : close stack with ⟨ops', below'⟩
      rw [close, hc] at h
      cases h
      obtain ⟨hw, hd⟩ := ih hc
      exact ⟨congrArg _ hw, hd⟩

theorem yielding_spec (precedence : Nat) (stack : List Waiting) :
    waiting stack = (yielding precedence stack).1.map .operator ++ waiting (yielding precedence stack).2 ∧
      depth stack = depth (yielding precedence stack).2 := by
  induction stack with
  | nil => exact ⟨rfl, rfl⟩
  | cons w stack ih =>
    cases w with
    | paren => exact ⟨rfl, rfl⟩
    | operator op =>
      rw [yielding]
      split
      · exact ⟨congrArg _ ih.1, ih.2⟩
      · exact ⟨rfl, rfl⟩

private theorem finish_spec (stack : List Waiting) :
    (finish stack).output = waiting stack ∧ ((finish stack).balanced = true ↔ depth stack = 0) := by
  induction stack with
  | nil => exact ⟨rfl, by simp [finish, depth]⟩
  | cons w stack ih =>
    cases w with
    | paren => exact ⟨ih.1, by simp [finish, depth]⟩
    | operator op => exact ⟨congrArg _ ih.1, ih.2⟩

/-! ### Any list of tokens -/

theorem ofTokens_append_stop {ts : List Token} (h : .stop ∉ ts) (us : List Token) (stack : List Waiting) :
    ofTokens (ts ++ .stop :: us) stack = ofTokens ts stack := by
  induction ts generalizing stack with
  | nil => rfl
  | cons t ts ih =>
    simp only [List.mem_cons, not_or] at h
    cases t with
    | stop => exact absurd rfl h.1
    | literal | name | lparen | operator => simp only [List.cons_append, ofTokens, ih h.2]
    | rparen => simp only [List.cons_append, ofTokens, ih h.2]

/-- The reordered tokens are the output unless parentheses that do not match bother the caller. -/
theorem polish_eq_ok_iff {strict : Bool} {tokens out : List Token} :
    Token.polish strict tokens = .ok out ↔
      (strict = true → (ofTokens tokens []).balanced = true) ∧ (ofTokens tokens []).output = out := by
  rw [Token.polish]
  cases strict <;> cases (ofTokens tokens []).balanced <;> simp

theorem polish_eq_error_iff {strict : Bool} {tokens : List Token} {e : Error} :
    Token.polish strict tokens = .error e ↔
      strict = true ∧ (ofTokens tokens []).balanced = false ∧ e = .unbalancedParenthesis := by
  rw [Token.polish]
  cases strict <;> cases (ofTokens tokens []).balanced <;> simp [eq_comm]

theorem stop_notMem_takeWhile (tokens : List Token) : .stop ∉ tokens.takeWhile (· ≠ .stop) := by
  intro h
  simpa using List.mem_takeWhile_imp h

/-- Tokens behind the first end mark do not count. -/
theorem ofTokens_takeWhile (tokens : List Token) (stack : List Waiting) :
    ofTokens (tokens.takeWhile (· ≠ .stop)) stack = ofTokens tokens stack := by
  induction tokens generalizing stack with
  | nil => rfl
  | cons t ts ih =>
    cases t with
    | stop => rfl
    | literal | name | operator | lparen | rparen =>
      rw [List.takeWhile_cons_of_pos (by simp)]
      simp only [ofTokens, ih]

private theorem filter_isOperand_operators (ops : List Operator) :
    (ops.map Token.operator).filter Token.isOperand = [] := by
  simp [Token.isOperand]

private theorem filter_isOperator_operators (ops : List Operator) :
    (ops.map Token.operator).filter Token.isOperator = ops.map Token.operator := by
  simp [Token.isOperator]

private theorem waiting_eq_map (stack : List Waiting) : ∃ ops : List Operator, waiting stack = ops.map .operator := by
  induction stack with
  | nil => exact ⟨[], rfl⟩
  | cons w stack ih =>
    obtain ⟨ops, h⟩ := ih
    cases w with
    | paren => exact ⟨ops, h⟩
    | operator op => exact ⟨op :: ops, congrArg _ h⟩

/-- Operands keep their order. -/
theorem filter_isOperand_ofTokens {ts : List Token} (h : .stop ∉ ts) (stack : List Waiting) :
    (ofTokens ts stack).output.filter Token.isOperand = ts.filter Token.isOperand := by
  induction ts generalizing stack with
  | nil =>
    obtain ⟨ops, hops⟩ := waiting_eq_map stack
    rw [ofTokens, (finish_spec stack).1, hops, filter_isOperand_operators]
    rfl
  | cons t ts ih =>
    simp only [List.mem_cons, not_or] at h
    cases t with
    | stop => exact absurd rfl h.1
    | literal value => exact congrArg (List.cons _) (ih h.2 stack)
    | name identifier => exact congrArg (List.cons _) (ih h.2 stack)
    | lparen => exact ih h.2 _
    | rparen =>
      rw [ofTokens]
      rcases close stack with ⟨ops, _ | below⟩
      · simp [prepend, Token.isOperand, ih h.2]
      · simp [prepend, Token.isOperand, ih h.2]
    | operator op =>
      simp only [ofTokens, prepend, List.filter_append, filter_isOperand_operators, List.nil_append, ih h.2]
      simp [Token.isOperand]

/-- Operators leave the stack exactly once each. -/
theorem filter_isOperator_ofTokens {ts : List Token} (h : .stop ∉ ts) (stack : List Waiting) :
    ((ofTokens ts stack).output.filter Token.isOperator).Perm (ts.filter Token.isOperator ++ waiting stack) := by
  induction ts generalizing stack with
  | nil =>
    obtain ⟨ops, hops⟩ := waiting_eq_map stack
    rw [ofTokens, (finish_spec stack).1, hops, filter_isOperator_operators]
    exact List.Perm.refl _
  | cons t ts ih =>
    simp only [List.mem_cons, not_or] at h
    cases t with
    | stop => exact absurd rfl h.1
    | literal value => exact ih h.2 stack
    | name identifier => exact ih h.2 stack
    | lparen => exact ih h.2 (.paren :: stack)
    | rparen =>
      -- The operators above the partner go to the output, and where there is none all of them do.
      rcases hc : close stack with ⟨ops, below⟩
      have hout : (ofTokens (.rparen :: ts) stack).output =
          ops.map .operator ++ (ofTokens ts (below.getD [])).output := by
        rw [ofTokens, hc]
        cases below <;> rfl
      rw [hout, (close_spec hc).1, List.filter_append, filter_isOperator_operators]
      refine (List.Perm.append_left _ (ih h.2 _)).trans ?_
      rw [← List.append_assoc, ← List.append_assoc]
      exact List.perm_append_comm.append_right _
    | operator op =>
      have hy := yielding_spec op.precedence stack
      simp only [ofTokens, prepend, List.filter_append, filter_isOperator_operators]
      rw [hy.1]
      refine (List.Perm.append_left _ (ih h.2 _)).trans ?_
      have hop : (Token.operator op :: ts).filter Token.isOperator = .operator op :: ts.filter Token.isOperator := rfl
      rw [hop, waiting]
      generalize (yielding op.precedence stack).1.map Token.operator = a
      generalize ts.filter Token.isOperator = b
      generalize waiting (yielding op.precedence stack).2 = c
      rw [← List.append_assoc, List.cons_append, ← List.append_assoc b]
      exact List.perm_middle.trans ((List.perm_append_comm.append_right c).cons _)

/-- The output holds operands and operators only. -/
theorem isOperand_or_isOperator_of_mem_ofTokens {ts : List Token} {stack : List Waiting} {t : Token}
    (h : t ∈ (ofTokens ts stack).output) : t.isOperand = true ∨ t.isOperator = true := by
  have hoperators : ∀ ops : List Operator, t ∈ ops.map Token.operator → t.isOperand = true ∨ t.isOperator = true := by
    intro ops ht
    obtain ⟨op, -, rfl⟩ := List.mem_map.1 ht
    exact .inr rfl
  have hfinish : ∀ stack, t ∈ (finish stack).output → t.isOperand = true ∨ t.isOperator = true := by
    intro stack ht
    obtain ⟨ops, hops⟩ := waiting_eq_map stack
    rw [(finish_spec stack).1, hops] at ht
    exact hoperators ops ht
  induction ts generalizing stack with
  | nil => exact hfinish stack h
  | cons u ts ih =>
    cases u with
    | stop => exact hfinish stack h
    | literal value =>
      rcases List.mem_cons.1 h with rfl | h
      · exact .inl rfl
      · exact ih h
    | name identifier =>
      rcases List.mem_cons.1 h with rfl | h
      · exact .inl rfl
      · exact ih h
    | lparen => exact ih h
    | rparen =>
      rw [ofTokens] at h
      rcases hc : close stack with ⟨ops, _ | below⟩
      · rw [hc] at h
        exact (List.mem_append.1 h).elim (hoperators ops) ih
      · rw [hc] at h
        exact (List.mem_append.1 h).elim (hoperators ops) ih
    | operator op =>
      rw [ofTokens] at h
      exact (List.mem_append.1 h).elim (hoperators _) ih

theorem countP_isOperand_or_isOperator (ts : List Token) :
    ts.countP (fun t => t.isOperand || t.isOperator) = ts.countP Token.isOperand + ts.countP Token.isOperator := by
  induction ts with
  | nil => rfl
  | cons t ts ih =>
    rw [List.countP_cons, List.countP_cons, List.countP_cons, ih]
    cases t with
    | literal | name => simp [Token.isOperand, Token.isOperator]; omega
    | operator => simp [Token.isOperand, Token.isOperator]; omega
    | lparen | rparen | stop => simp [Token.isOperand, Token.isOperator]

/-- Whatever the tokens and however strict the caller, an output loses and invents nothing: it holds the operands
before the end mark in their order, the operators in some order, and nothing else. -/
theorem polish_conserves {strict : Bool} {tokens out : List Token} (h : Token.polish strict tokens = .ok out) :
    let ts := tokens.takeWhile (· ≠ .stop)
    (∀ t ∈ out, t.isOperand = true ∨ t.isOperator = true) ∧
      out.filter Token.isOperand = ts.filter Token.isOperand ∧
      (out.filter Token.isOperator).Perm (ts.filter Token.isOperator) ∧
      out.length = ts.countP fun t => t.isOperand || t.isOperator := by
  intro ts
  have hstop : .stop ∉ ts := stop_notMem_takeWhile tokens
  have hout : out = (ofTokens ts []).output := by
    rw [ofTokens_takeWhile]
    exact (polish_eq_ok_iff.1 h).2.symm
  have hmem : ∀ t ∈ out, t.isOperand = true ∨ t.isOperator = true := by
    intro t ht
    rw [hout] at ht
    exact isOperand_or_isOperator_of_mem_ofTokens ht
  have hoperands : out.filter Token.isOperand = ts.filter Token.isOperand := by
    rw [hout]
    exact filter_isOperand_ofTokens hstop []
  have hoperators : (out.filter Token.isOperator).Perm (ts.filter Token.isOperator) := by
    have hperm := filter_isOperator_ofTokens hstop []
    rwa [← hout, waiting, List.append_nil] at hperm
  refine ⟨hmem, hoperands, hoperators, ?_⟩
  calc out.length = out.countP (fun t => t.isOperand || t.isOperator) :=
        (List.countP_eq_length.2 fun t ht => by simpa using hmem t ht).symm
    _ = (out.filter Token.isOperand).length + (out.filter Token.isOperator).length := by
        rw [countP_isOperand_or_isOperator, List.countP_eq_length_filter, List.countP_eq_length_filter]
    _ = (ts.filter Token.isOperand).length + (ts.filter Token.isOperator).length := by
        rw [hoperands, hoperators.length_eq]
    _ = ts.countP (fun t => t.isOperand || t.isOperator) := by
        rw [countP_isOperand_or_isOperator, List.countP_eq_length_filter, List.countP_eq_length_filter]

/-- Parentheses without partner, operators that lack operands, and tokens behind the end mark. -/
theorem polish_conserves_unmatched :
    let tokens : List Token := [.rparen, .literal 1, .operator .add, .lparen, .name ['x'], .operator .mul,
      .operator .sub, .stop, .literal 9, .operator .div]
    let out : List Token := [.literal 1, .name ['x'], .operator .mul, .operator .sub, .operator .add]
    Token.polish false tokens = .ok out ∧
      (out.filter Token.isOperator).Perm ((tokens.takeWhile (· ≠ .stop)).filter Token.isOperator) ∧
      out.length = (tokens.takeWhile (· ≠ .stop)).countP fun t => t.isOperand || t.isOperator := by
  intro tokens out
  have h : Token.polish false tokens = .ok out := by decide
  obtain ⟨-, -, hoperators, hlength⟩ := polish_conserves h
  exact ⟨h, hoperators, hlength⟩

/-- Whether parentheses match when `n` of them are open already. -/
def closes : Nat → List Token → Bool
  | n, [] => n == 0
  | n, .lparen :: ts => closes (n + 1) ts
  | 0, .rparen :: _ => false
  | n + 1, .rparen :: ts => closes n ts
  | n, _ :: ts => closes n ts

theorem balanced_ofTokens {ts : List Token} (h : .stop ∉ ts) (stack : List Waiting) :
    (ofTokens ts stack).balanced = closes (depth stack) ts := by
  induction ts generalizing stack with
  | nil =>
    rw [ofTokens, closes, Bool.eq_iff_iff, (finish_spec stack).2, beq_iff_eq]
  | cons t ts ih =>
    simp only [List.mem_cons, not_or] at h
    cases t with
    | stop => exact absurd rfl h.1
    | literal value => exact ih h.2 stack
    | name identifier => exact ih h.2 stack
    | lparen => exact ih h.2 (.paren :: stack)
    | rparen =>
      rcases hc : close stack with ⟨ops, _ | below⟩
      · rw [ofTokens, hc, (close_spec hc).2]
        rfl
      · rw [ofTokens, hc, (close_spec hc).2]
        exact ih h.2 below
    | operator op =>
      rw [ofTokens, (yielding_spec op.precedence stack).2]
      exact ih h.2 _

/-! ### Tokens that write an expression -/

private theorem yielding_mono {p q : Nat} (hpq : p ≤ q) {stack : List Waiting} (h : yielding p stack = ([], stack)) :
    yielding q stack = ([], stack) := by
  match stack with
  | [] => rfl
  | .paren :: below => rfl
  | .operator op :: below =>
    rw [yielding] at h ⊢
    split at h
    · simp at h
    · next hp => rw [if_neg (fun hq => hp (Nat.le_trans hpq hq))]

private theorem yielding_append {p : Nat} {ops : List Operator} (hops : ∀ op ∈ ops, p ≤ op.precedence)
    {stack : List Waiting} (h : yielding p stack = ([], stack)) :
    yielding p (ops.map .operator ++ stack) = (ops, stack) := by
  induction ops with
  | nil => exact h
  | cons op ops ih =>
    rw [List.map_cons, List.cons_append, yielding, if_pos (hops op List.mem_cons_self),
      ih fun o ho => hops o (List.mem_cons_of_mem _ ho)]

/-- What lies below a stack is reached if no parenthesis is open in it. -/
theorem close_append (stack more : List Waiting) :
    close (stack ++ more) =
      match close stack with
      | (ops, some below) => (ops, some (below ++ more))
      | (ops, none) => (ops ++ (close more).1, (close more).2) := by
  induction stack with
  | nil => rfl
  | cons w stack ih =>
    cases w with
    | paren => rfl
    | operator op =>
      rw [List.cons_append, close, close, ih]
      rcases close stack with ⟨ops, _ | below⟩ <;> rfl

private theorem close_operators (ops : List Operator) : close (ops.map .operator) = (ops, none) := by
  induction ops with
  | nil => rfl
  | cons op ops ih => rw [List.map_cons, close, ih]

private theorem finish_operators (ops : List Operator) :
    finish (ops.map .operator) = { output := ops.map .operator, balanced := true } := by
  induction ops with
  | nil => rfl
  | cons op ops ih => rw [List.map_cons, finish, ih]; rfl

/-- Reading `ts` above a stack that an operator of precedence `p` leaves alone puts a part of the postorder of `e`
into the output, and leaves the rest of it on the stack as operators that bind at least as tightly as `p`. -/
def Reorders (p : Nat) (e : Expr) (ts : List Token) : Prop :=
  ∃ (out : List Token) (ops : List Operator), out ++ ops.map .operator = e.postorder ∧
    (∀ op ∈ ops, p ≤ op.precedence) ∧
    ∀ stack rest, yielding p stack = ([], stack) →
      ofTokens (ts ++ rest) stack = (ofTokens rest (ops.map .operator ++ stack)).emit out

private theorem Reorders.mono {p q : Nat} {e : Expr} {ts : List Token} (h : Reorders q e ts) (hpq : p ≤ q) :
    Reorders p e ts := by
  obtain ⟨out, ops, heq, hops, hread⟩ := h
  exact ⟨out, ops, heq, fun op hop => Nat.le_trans hpq (hops op hop),
    fun stack rest hs => hread stack rest (yielding_mono hpq hs)⟩

theorem Reorders.paren {e : Expr} {ts : List Token} (h : Reorders 1 e ts) :
    Reorders 3 e (.lparen :: ts ++ [.rparen]) := by
  obtain ⟨out, ops, heq, -, hread⟩ := h
  refine ⟨e.postorder, [], by simp, by simp, fun stack rest _ => ?_⟩
  have hin := hread (.paren :: stack) (.rparen :: rest) rfl
  rw [ofTokens, close_append, close_operators] at hin
  rw [← heq, ← emit_emit, ← prepend_eq_emit]
  simpa [ofTokens, close] using hin

/-- An operator sends the operators of its left side to the output and waits below those of its right side. -/
theorem Reorders.binary {p : Nat} {op : Operator} {l r : Expr} {ts us : List Token} (hop : op.precedence = p)
    (hl : Reorders p l ts) (hr : Reorders (p + 1) r us) :
    Reorders p (.binary op l r) (ts ++ .operator op :: us) := by
  subst hop
  obtain ⟨out, ops, heq, hops, hread⟩ := hl
  obtain ⟨out', ops', heq', hops', hread'⟩ := hr
  refine ⟨l.postorder ++ out', ops' ++ [op], ?_, ?_, fun stack rest hs => ?_⟩
  · simp [Expr.postorder, ← heq']
  · intro o ho
    rcases List.mem_append.1 ho with ho | ho
    · exact Nat.le_of_succ_le (hops' o ho)
    · exact Nat.le_of_eq (congrArg _ (List.mem_singleton.1 ho).symm)
  · -- The operator waits on top while its right side is read, and nothing in the right side sends it out.
    have htop : yielding (op.precedence + 1) (.operator op :: stack) = ([], .operator op :: stack) := by
      rw [yielding, if_neg (Nat.not_succ_le_self _)]
    have hleft := hread stack (.operator op :: us ++ rest) hs
    rw [List.cons_append, ofTokens, yielding_append hops hs] at hleft
    dsimp only at hleft
    rw [hread' _ rest htop, prepend_eq_emit, emit_emit, emit_emit, heq] at hleft
    simpa using hleft

private theorem reorders_of_writes {l : Level} {e : Expr} {ts : List Token} (h : Writes l e ts) :
    Reorders l.precedence e ts := by
  induction h with
  | literal value => exact ⟨[.literal value], [], rfl, by simp, fun _ _ _ => rfl⟩
  | name identifier => exact ⟨[.name identifier], [], rfl, by simp, fun _ _ _ => rfl⟩
  | paren _ ih => exact ih.paren
  | term _ ih => exact ih.mono (by decide)
  | sum _ ih => exact ih.mono (by decide)
  | product hop _ _ ihl ihr => exact ihl.binary (by rcases hop with rfl | rfl <;> rfl) ihr
  | addition hop _ _ ihl ihr => exact ihl.binary (by rcases hop with rfl | rfl <;> rfl) ihr

/-- The tokens that write a tree become its postorder, with or without an end mark. -/
theorem ofTokens_of_writes {e : Expr} {ts : List Token} (h : Writes .sum e ts) (rest : List Token)
    (hrest : ∀ t ∈ rest.head?, t = .stop) :
    ofTokens (ts ++ rest) [] = { output := e.postorder, balanced := true } := by
  obtain ⟨out, ops, heq, -, hread⟩ := reorders_of_writes h
  have hfinish : ∀ stack, ofTokens rest stack = finish stack := by
    intro stack
    cases rest with
    | nil => rfl
    | cons t rest =>
      obtain rfl := hrest t rfl
      rfl
  rw [hread [] rest rfl, List.append_nil, hfinish, finish_operators, emit, heq]

theorem polish_of_writes {e : Expr} {ts : List Token} (h : Writes .sum e ts) (strict : Bool) (us : List Token) :
    Token.polish strict (ts ++ .stop :: us) = .ok e.postorder := by
  rw [polish_eq_ok_iff, ofTokens_of_writes h (.stop :: us) (by simp)]
  exact ⟨fun _ => rfl, rfl⟩

/-- Every tree is written by some tokens, if only with parentheses around each of its operators. -/
private theorem exists_writes_factor (e : Expr) : ∃ ts, Writes .factor e ts := by
  induction e with
  | literal value => exact ⟨_, .literal value⟩
  | name identifier => exact ⟨_, .name identifier⟩
  | binary op l r ihl ihr =>
    obtain ⟨ts, hl⟩ := ihl
    obtain ⟨us, hr⟩ := ihr
    rcases op.sum_or_product with hop | hop
    · exact ⟨_, .paren (.addition hop (.sum (.term hl)) (.term hr))⟩
    · exact ⟨_, .paren (.sum (.product hop (.term hl) hr))⟩

/-- Every tree can be written, and whatever tokens write it are reordered into its postorder, by strict and by lenient
callers, with or without an end mark and more tokens behind it. -/
theorem polish_eq_postorder (e : Expr) :
    (∃ ts, Writes .sum e ts) ∧
      ∀ ts, Writes .sum e ts → ∀ (strict : Bool) (us : List Token),
        Token.polish strict ts = .ok e.postorder ∧ Token.polish strict (ts ++ .stop :: us) = .ok e.postorder := by
  refine ⟨?_, fun ts hts strict us => ⟨?_, polish_of_writes hts strict us⟩⟩
  · obtain ⟨ts, hts⟩ := exists_writes_factor e
    exact ⟨ts, .sum (.term hts)⟩
  · have hp := ofTokens_of_writes hts [] (by simp)
    rw [List.append_nil] at hp
    rw [polish_eq_ok_iff, hp]
    exact ⟨fun _ => rfl, rfl⟩

/-- `((a)) - 2 * (b - 1) / (3)`, with more tokens behind the end mark. -/
theorem polish_eq_postorder_redundant :
    let e : Expr := .binary .sub (.name ['a'])
      (.binary .div (.binary .mul (.literal 2) (.binary .sub (.name ['b']) (.literal 1))) (.literal 3))
    let ts : List Token := [.lparen, .lparen, .name ['a'], .rparen, .rparen, .operator .sub, .literal 2,
      .operator .mul, .lparen, .name ['b'], .operator .sub, .literal 1, .rparen, .operator .div, .lparen, .literal 3,
      .rparen]
    Writes .sum e ts ∧ Token.polish true (ts ++ [.stop, .rparen]) =
      .ok [.name ['a'], .literal 2, .name ['b'], .literal 1, .operator .sub, .operator .mul, .literal 3,
        .operator .div, .operator .sub] := by
  intro e ts
  have ha : Writes .sum (.name ['a']) [.lparen, .lparen, .name ['a'], .rparen, .rparen] :=
    .sum (.term (.paren (.sum (.term (.paren (.sum (.term (.name ['a']))))))))
  have hb : Writes .sum (.binary .sub (.name ['b']) (.literal 1)) [.name ['b'], .operator .sub, .literal 1] :=
    .addition (.inr rfl) (.sum (.term (.name ['b']))) (.term (.literal 1))
  have hproduct : Writes .term (.binary .mul (.literal 2) (.binary .sub (.name ['b']) (.literal 1)))
      [.literal 2, .operator .mul, .lparen, .name ['b'], .operator .sub, .literal 1, .rparen] :=
    .product (.inl rfl) (.term (.literal 2)) (.paren hb)
  have hts : Writes .sum e ts :=
    .addition (.inr rfl) ha (.product (.inr rfl) hproduct (.paren (.sum (.term (.literal 3)))))
  exact ⟨hts, ((polish_eq_postorder e).2 ts hts true [.rparen]).2⟩

end Polish

end ArithMips
