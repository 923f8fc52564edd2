import ArithMips.Proofs.Polish
import Mathlib.Data.List.Induction

/-!
# Parentheses without partner

A `(` and a `)` are partners if parentheses match in all that stands between them (`Polish.Partners`).  The `)` without
partner and the `(` without partner are counted by one pass over the tokens, which keeps the number of open parentheses
(`Polish.tally`, `Polish.strays_eq_tally`, `Polish.unclosed_eq_tally`).

* A strict caller gets an error if and only if there is a parenthesis without partner.
* For any other caller the tokens are reordered as if the missing partners stood at both ends of the list
  (`Polish.ofTokens_repaired`).  The invariant relates two stacks: the one of the repaired list has, below the other
  one, an open parenthesis for each `)` without partner that is still to come.
-/

namespace ArithMips.Polish

/-- The `(` at `i` and the `)` at `j` are partners: parentheses match between them. -/
def Partners (ts : List Token) (i j : Nat) : Prop :=
  i < j ∧ ts[i]? = some .lparen ∧ ts[j]? = some .rparen ∧ closes 0 ((ts.take j).drop (i + 1)) = true

instance (ts : List Token) (i j : Nat) : Decidable (Partners ts i j) := inferInstanceAs (Decidable (_ ∧ _))

/-- The number of `)` without partner. -/
def strays (ts : List Token) : Nat :=
  (List.range ts.length).countP fun j => ts[j]? = some .rparen ∧ ∀ i < j, ¬Partners ts i j

/-- The number of `(` without partner. -/
def unclosed (ts : List Token) : Nat :=
  (List.range ts.length).countP fun i => ts[i]? = some .lparen ∧ ∀ j < ts.length, ¬Partners ts i j

/-! ### Counting in one pass -/

/-- The number of `)` that find no open `(`, and the number of `(` that are open at the end, when `n` of them are open
already. -/
def tally : Nat → List Token → Nat × Nat
  | n, [] => (0, n)
  | n, .lparen :: ts => tally (n + 1) ts
  | 0, .rparen :: ts => ((tally 0 ts).1 + 1, (tally 0 ts).2)
  | n + 1, .rparen :: ts => tally n ts
  | n, _ :: ts => tally n ts

private theorem tally_append (n : Nat) (ts us : List Token) :
    tally n (ts ++ us) = ((tally n ts).1 + (tally (tally n ts).2 us).1, (tally (tally n ts).2 us).2) := by
  induction ts generalizing n with
  | nil => simp [tally]
  | cons t ts ih =>
    cases t with
    | rparen =>
      cases n with
      | zero =>
        simp only [List.cons_append, tally, ih, Prod.mk.injEq, and_true]
        omega
      | succ n => exact ih n
    | lparen => exact ih (n + 1)
    | literal | name | operator | stop => exact ih n

/-- Parentheses that are open already are the partners of the first `)` that find none. -/
private theorem tally_eq (n : Nat) (ts : List Token) :
    (tally n ts).1 = (tally 0 ts).1 - n ∧ (tally n ts).2 = (tally 0 ts).2 + (n - (tally 0 ts).1) := by
  induction ts generalizing n with
  | nil => simp [tally]
  | cons t ts ih =>
    cases t with
    | rparen =>
      cases n with
      | zero => simp
      | succ n =>
        obtain ⟨h₁, h₂⟩ := ih n
        simp only [tally]
        omega
    | lparen =>
      obtain ⟨h₁, h₂⟩ := ih (n + 1)
      obtain ⟨k₁, k₂⟩ := ih 1
      simp only [tally, Nat.zero_add]
      omega
    | literal | name | operator | stop => exact ih n

private theorem closes_iff_tally (n : Nat) (ts : List Token) : closes n ts = true ↔ tally n ts = (0, 0) := by
  induction ts generalizing n with
  | nil => simp [closes, tally]
  | cons t ts ih =>
    cases t with
    | rparen =>
      cases n with
      | zero => simp [closes, tally]
      | succ n => exact ih n
    | lparen => exact ih (n + 1)
    | literal | name | operator | stop => exact ih n

/-- An open `(` is left by a prefix exactly if parentheses match in what follows one of its `(`. -/
private theorem tally_snd_pos_iff (ts : List Token) :
    0 < (tally 0 ts).2 ↔ ∃ a b, ts = a ++ .lparen :: b ∧ closes 0 b = true := by
  induction ts with
  | nil => simp [tally]
  | cons t ts ih =>
    -- A `(` further on, or the first token.
    have hcons : (∃ a b, t :: ts = a ++ .lparen :: b ∧ closes 0 b = true) ↔
        (t = .lparen ∧ closes 0 ts = true) ∨ 0 < (tally 0 ts).2 := by
      rw [ih]
      constructor
      · rintro ⟨_ | ⟨c, a⟩, b, h, hb⟩
        · obtain ⟨rfl, rfl⟩ := List.cons.inj h
          exact .inl ⟨rfl, hb⟩
        · obtain ⟨rfl, rfl⟩ := List.cons.inj h
          exact .inr ⟨a, b, rfl, hb⟩
      · rintro (⟨rfl, hb⟩ | ⟨a, b, rfl, hb⟩)
        · exact ⟨[], ts, rfl, hb⟩
        · exact ⟨t :: a, b, rfl, hb⟩
    rw [hcons]
    cases t with
    | lparen =>
      have h := (tally_eq 1 ts).2
      simp only [tally, Nat.zero_add, closes_iff_tally, Prod.ext_iff, true_and]
      omega
    | literal | name | operator | rparen | stop => simp [tally]

/-- Some `)` finds no `(` exactly if parentheses match in what stands before one of them. -/
private theorem tally_fst_pos_iff (ts : List Token) :
    0 < (tally 0 ts).1 ↔ ∃ a b, ts = a ++ .rparen :: b ∧ closes 0 a = true := by
  induction ts using List.reverseRecOn with
  | nil => simp [tally]
  | append_singleton ts t ih =>
    -- A `)` earlier on, or the last token.
    have hsnoc : (∃ a b, ts ++ [t] = a ++ .rparen :: b ∧ closes 0 a = true) ↔
        (t = .rparen ∧ closes 0 ts = true) ∨ 0 < (tally 0 ts).1 := by
      rw [ih]
      constructor
      · rintro ⟨a, b, h, ha⟩
        rcases List.eq_nil_or_concat b with rfl | ⟨b, d, rfl⟩
        · obtain ⟨rfl, ht⟩ := List.append_inj' h rfl
          exact .inl ⟨(List.cons.inj ht).1, ha⟩
        · rw [List.concat_eq_append, ← List.cons_append, ← List.append_assoc] at h
          exact .inr ⟨a, b, (List.append_inj' h rfl).1, ha⟩
      · rintro (⟨rfl, ha⟩ | ⟨a, b, rfl, ha⟩)
        · exact ⟨ts, [], rfl, ha⟩
        · exact ⟨a, b ++ [t], by simp, ha⟩
    rw [hsnoc, tally_append]
    cases t with
    | rparen =>
      rcases hts : tally 0 ts with ⟨s, u⟩
      simp only [closes_iff_tally, hts, Prod.mk.injEq, true_and]
      cases u with
      | zero => simp [tally]; omega
      | succ u => simp [tally]
    | literal | name | operator | lparen | stop => simp [tally]

/-! ### Counting partners -/

private theorem eq_take_append_cons_drop {ts : List Token} {i : Nat} {t : Token} (h : ts[i]? = some t) :
    ts = ts.take i ++ t :: ts.drop (i + 1) := by
  obtain ⟨hi, rfl⟩ := List.getElem?_eq_some_iff.1 h
  rw [List.getElem_cons_drop, List.take_append_drop]

/-- A `)` has a partner if and only if a `(` is open before it. -/
private theorem exists_partners_left_iff {ts : List Token} {j : Nat} (hj : ts[j]? = some .rparen) :
    (∃ i < j, Partners ts i j) ↔ 0 < (tally 0 (ts.take j)).2 := by
  rw [tally_snd_pos_iff]
  constructor
  · rintro ⟨i, hij, -, hi, -, hcloses⟩
    rw [← List.getElem?_take_of_lt hij] at hi
    exact ⟨_, _, eq_take_append_cons_drop hi, hcloses⟩
  · rintro ⟨a, b, htake, hb⟩
    have hlength := congrArg List.length htake
    rw [List.length_take, List.length_append, List.length_cons] at hlength
    have hij : a.length < j := by omega
    refine ⟨a.length, hij, hij, ?_, hj, ?_⟩
    · rw [← List.getElem?_take_of_lt hij, htake]
      simp
    · rw [htake]
      simpa using hb

/-- A `(` has a partner if and only if some `)` behind it finds no `(` there. -/
private theorem exists_partners_right_iff {ts : List Token} {i : Nat} (hi : ts[i]? = some .lparen) :
    (∃ j < ts.length, Partners ts i j) ↔ 0 < (tally 0 (ts.drop (i + 1))).1 := by
  rw [tally_fst_pos_iff]
  constructor
  · rintro ⟨j, -, hij, -, hj, hcloses⟩
    rw [← Nat.add_sub_cancel' (Nat.succ_le_of_lt hij), ← List.getElem?_drop] at hj
    rw [List.drop_take] at hcloses
    exact ⟨_, _, eq_take_append_cons_drop hj, hcloses⟩
  · rintro ⟨a, b, hdrop, ha⟩
    have hj : ts[i + 1 + a.length]? = some .rparen := by
      rw [← List.getElem?_drop, hdrop]
      simp
    refine ⟨i + 1 + a.length, (List.getElem?_eq_some_iff.1 hj).1, by omega, hi, hj, ?_⟩
    rw [List.drop_take, hdrop, Nat.add_sub_cancel_left, List.take_left]
    exact ha

theorem strays_eq_tally (ts : List Token) : strays ts = (tally 0 ts).1 := by
  have hcount : strays ts =
      (List.range ts.length).countP fun j => ts[j]? = some .rparen ∧ (tally 0 (ts.take j)).2 = 0 := by
    refine List.countP_congr fun j _ => ?_
    simp only [decide_eq_true_eq]
    refine and_congr_right fun hj => ?_
    rw [← Nat.le_zero, ← Nat.not_lt, ← exists_partners_left_iff hj]
    simp
  rw [hcount]
  clear hcount
  induction ts using List.reverseRecOn with
  | nil => rfl
  | append_singleton ts t ih =>
    rw [List.length_append, List.length_singleton, List.range_succ, List.countP_append, List.countP_singleton,
      tally_append, ← ih]
    congr 1
    · refine List.countP_congr fun j hj => ?_
      have hj := List.mem_range.1 hj
      rw [List.getElem?_append_left hj, List.take_append_of_le_length (Nat.le_of_lt hj)]
    · rw [List.getElem?_concat_length, List.take_left]
      rcases (tally 0 ts).2 with _ | u <;> cases t <;> simp [tally]

theorem unclosed_eq_tally (ts : List Token) : unclosed ts = (tally 0 ts).2 := by
  have hcount : unclosed ts =
      (List.range ts.length).countP fun i => ts[i]? = some .lparen ∧ (tally 0 (ts.drop (i + 1))).1 = 0 := by
    refine List.countP_congr fun i _ => ?_
    simp only [decide_eq_true_eq]
    refine and_congr_right fun hi => ?_
    rw [← Nat.le_zero, ← Nat.not_lt, ← exists_partners_right_iff hi]
    simp
  rw [hcount]
  clear hcount
  induction ts with
  | nil => rfl
  | cons t ts ih =>
    have hrest : (List.range ts.length).countP
        ((fun i => decide ((t :: ts)[i]? = some .lparen ∧ (tally 0 ((t :: ts).drop (i + 1))).1 = 0)) ∘ Nat.succ) =
          (tally 0 ts).2 := ih
    rw [List.length_cons, List.range_succ_eq_map, List.countP_cons, List.countP_map, hrest]
    have h := (tally_eq 1 ts).2
    cases t with
    | lparen =>
      simp only [tally, Nat.zero_add, h]
      by_cases hzero : (tally 0 ts).1 = 0
      · simp [hzero]
      · simp [hzero]
        omega
    | literal | name | operator | rparen | stop => simp [tally]

/-! ### The repaired list -/

private theorem ofTokens_replicate_lparen (n : Nat) (rest : List Token) (stack : List Waiting) :
    ofTokens (List.replicate n .lparen ++ rest) stack = ofTokens rest (List.replicate n .paren ++ stack) := by
  induction n generalizing stack with
  | zero => rfl
  | succ n ih =>
    rw [List.replicate_succ, List.cons_append, ofTokens, ih, List.replicate_succ', List.append_assoc]
    rfl

/-- Operators go to the output one by one, with or without a `)` for each open parenthesis. -/
private theorem ofTokens_replicate_rparen (stack : List Waiting) :
    ofTokens (List.replicate (depth stack) .rparen) stack = { finish stack with balanced := true } := by
  induction stack with
  | nil => rfl
  | cons w stack ih =>
    cases w with
    | paren => exact ih
    | operator op =>
      -- The operator leaves the stack first, whether or not a `)` is left.
      have hop : ∀ n, ofTokens (List.replicate n .rparen) (.operator op :: stack) =
          (ofTokens (List.replicate n .rparen) stack).prepend [op] := by
        intro n
        cases n with
        | zero => rfl
        | succ n =>
          rw [List.replicate_succ, ofTokens, ofTokens, close]
          rcases close stack with ⟨ops, _ | below⟩ <;> rfl
      rw [depth, hop, ih]
      rfl

private theorem yielding_append_parens (precedence n : Nat) (stack : List Waiting) :
    yielding precedence (stack ++ List.replicate n .paren) =
      ((yielding precedence stack).1, (yielding precedence stack).2 ++ List.replicate n .paren) := by
  induction stack with
  | nil => cases n <;> rfl
  | cons w stack ih =>
    cases w with
    | paren => rfl
    | operator op =>
      rw [List.cons_append, yielding, yielding, ih]
      split <;> rfl

/-- With a partner for each parenthesis that has none, the `(` below the stack and the `)` behind the tokens, the
output is the same and all parentheses match. -/
theorem ofTokens_repaired {ts : List Token} (h : .stop ∉ ts) (stack : List Waiting) :
    ofTokens (ts ++ List.replicate (tally (depth stack) ts).2 .rparen)
        (stack ++ List.replicate (tally (depth stack) ts).1 .paren) =
      { ofTokens ts stack with balanced := true } := by
  induction ts generalizing stack with
  | nil =>
    rw [tally, List.replicate_zero, List.append_nil]
    exact ofTokens_replicate_rparen stack
  | cons t ts ih =>
    simp only [List.mem_cons, not_or] at h
    cases t with
    | stop => exact absurd rfl h.1
    | literal value =>
      have hrest := ih h.2 stack
      simp only [tally, List.cons_append, ofTokens, hrest]
    | name identifier =>
      have hrest := ih h.2 stack
      simp only [tally, List.cons_append, ofTokens, hrest]
    | lparen => exact ih h.2 (.paren :: stack)
    | rparen =>
      rcases hc : close stack with ⟨ops, _ | below⟩
      · -- The list is repaired by a `(` of its own for this `)`.
        have hdepth : depth stack = 0 := (close_spec hc).2
        have hrest := ih h.2 []
        rw [depth, List.nil_append] at hrest
        rw [hdepth, tally, List.replicate_succ, List.cons_append, ofTokens, ofTokens, close_append, hc]
        simp only [close, List.append_nil, hrest]
        rfl
      · have hdepth : depth stack = depth below + 1 := (close_spec hc).2
        have hrest := ih h.2 below
        rw [hdepth, tally, List.cons_append, ofTokens, ofTokens, close_append, hc]
        simp only [hrest]
        rfl
    | operator op =>
      have hrest := ih h.2 (.operator op :: (yielding op.precedence stack).2)
      rw [depth, ← (yielding_spec op.precedence stack).2] at hrest
      simp only [tally, List.cons_append, ofTokens, yielding_append_parens] at hrest ⊢
      rw [hrest]
      rfl

private theorem balanced_iff {ts : List Token} (h : .stop ∉ ts) :
    (ofTokens ts []).balanced = true ↔ strays ts + unclosed ts = 0 := by
  rw [balanced_ofTokens h, depth, closes_iff_tally, strays_eq_tally, unclosed_eq_tally, Prod.ext_iff]
  exact Nat.add_eq_zero_iff.symm

private theorem ofTokens_strays_unclosed {ts : List Token} (h : .stop ∉ ts) :
    ofTokens (List.replicate (strays ts) .lparen ++ ts ++ List.replicate (unclosed ts) .rparen) [] =
      { ofTokens ts [] with balanced := true } := by
  have hrepaired := ofTokens_repaired h []
  rw [depth, ← strays_eq_tally, ← unclosed_eq_tally, List.nil_append] at hrepaired
  rw [List.append_assoc, ofTokens_replicate_lparen, List.append_nil, hrepaired]

/-- A strict caller gets an error if and only if there is a parenthesis without partner, and then always the same
one.  Any other caller always gets an output, namely that of a strict caller for the list with the missing partners: a
`(` in front for each `)` that has none, and a `)` at the end for each `(` that has none. -/
theorem polish_repaired (tokens : List Token) :
    let ts := tokens.takeWhile (· ≠ .stop)
    let repaired := List.replicate (strays ts) .lparen ++ ts ++ List.replicate (unclosed ts) .rparen
    (∀ strict, Token.polish strict tokens = Token.polish strict ts) ∧
      (Token.polish true ts = .error .unbalancedParenthesis ↔ 0 < strays ts + unclosed ts) ∧
      ((∃ out, Token.polish true ts = .ok out) ↔ strays ts + unclosed ts = 0) ∧
      ∃ out, Token.polish false ts = .ok out ∧ Token.polish true repaired = .ok out := by
  intro ts repaired
  have hstop : .stop ∉ ts := stop_notMem_takeWhile tokens
  have hrepaired : ofTokens repaired [] = { ofTokens ts [] with balanced := true } := ofTokens_strays_unclosed hstop
  refine ⟨fun strict => ?_, ?_, ?_, (ofTokens ts []).output, ?_, ?_⟩
  · rw [Token.polish, Token.polish, ofTokens_takeWhile]
  · rw [polish_eq_error_iff, Nat.pos_iff_ne_zero, ne_eq, ← balanced_iff hstop]
    simp
  · rw [← balanced_iff hstop]
    simp [polish_eq_ok_iff]
  · exact polish_eq_ok_iff.2 ⟨by simp, rfl⟩
  · rw [polish_eq_ok_iff, hrepaired]
    exact ⟨fun _ => rfl, rfl⟩

/-- `) 1 + (2 * 3) )) ( 4 (`: three `)` and two `(` have no partner. -/
example :
    let ts : List Token := [.rparen, .literal 1, .operator .add, .lparen, .literal 2, .operator .mul, .literal 3,
      .rparen, .rparen, .rparen, .lparen, .literal 4, .lparen]
    strays ts = 3 ∧ unclosed ts = 2 ∧ Token.polish true ts = .error .unbalancedParenthesis := by
  decide

end ArithMips.Polish
