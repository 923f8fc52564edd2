import ArithMips.Token.Analysis

/-!
# Scanned tokens

A scan that succeeds ends its tokens with the end mark, and no other token is one (`Scan.exists_append_stop`).
-/

namespace ArithMips

private theorem Lexeme.ne_stop_of_read {limits : Limits} {l : Lexeme} {t : Token} (h : l.read limits = .token t) :
    t ≠ .stop := by
  rintro rfl
  cases l with
  | space | operator | lparen | rparen | unknown => cases h
  | numeral negative digits =>
    rw [read] at h
    split at h <;> cases h
  | word identifier =>
    rw [read] at h
    split at h <;> cases h

/-- What a lexeme does to a scan that succeeds: it adds a token or none. -/
theorem Scan.ofLexemes_cons_eq_ok {limits : Limits} {count : Nat} {l : Lexeme} {rest : List Lexeme}
    {tokens : List Token} (h : (ofLexemes limits count (l :: rest)).result = .ok tokens) :
    (ofLexemes limits count rest).result = .ok tokens ∨
      ∃ t ts, l.read limits = .token t ∧ tokens = t :: ts ∧ (ofLexemes limits (count + 1) rest).result = .ok ts := by
  rw [ofLexemes] at h
  split at h
  · exact .inl h
  · exact .inl h
  · cases h
  · next t ht =>
    split at h
    · cases h
    · dsimp only at h
      rcases hr : (ofLexemes limits (count + 1) rest).result with e | ts
      · rw [hr] at h
        cases h
      · rw [hr] at h
        cases h
        exact .inr ⟨t, ts, ht, rfl, rfl⟩

theorem Scan.exists_append_stop {limits : Limits} {count : Nat} {ls : List Lexeme} {tokens : List Token}
    (h : (ofLexemes limits count ls).result = .ok tokens) : ∃ ts, tokens = ts ++ [.stop] ∧ .stop ∉ ts := by
  induction ls generalizing count tokens with
  | nil =>
    cases h
    exact ⟨[], rfl, List.not_mem_nil⟩
  | cons l rest ih =>
    rcases ofLexemes_cons_eq_ok h with hrest | ⟨t, us, ht, rfl, hrest⟩
    · exact ih hrest
    · obtain ⟨ts, rfl, hts⟩ := ih hrest
      refine ⟨t :: ts, rfl, fun hmem => ?_⟩
      rcases List.mem_cons.1 hmem with heq | hmem
      · exact Lexeme.ne_stop_of_read ht heq.symm
      · exact hts hmem

/-! ### Other limits -/

/-- Whether an error says that a limit was exceeded. -/
def Error.isExcess : Error → Bool
  | tooMany _ _ | identifierTooLong _ _ => true
  | _ => false

/-- A scan depends on two of the limits only. -/
theorem Scan.ofLexemes_congr {limits limits' : Limits} (hname : limits.identifierLength = limits'.identifierLength)
    (htokens : limits.tokens = limits'.tokens) (count : Nat) (ls : List Lexeme) :
    ofLexemes limits count ls = ofLexemes limits' count ls := by
  induction ls generalizing count with
  | nil => rfl
  | cons l rest ih =>
    have hread : l.read limits = l.read limits' := by
      cases l with
      | space | numeral | operator | lparen | rparen | unknown => rfl
      | word x => rw [Lexeme.read, Lexeme.read, hname]
    simp only [ofLexemes, hread, htokens, ih]

private theorem Lexeme.read_mono {limits limits' : Limits} (hname : limits.identifierLength ≤ limits'.identifierLength)
    {l : Lexeme} (h : ∀ e, l.read limits = .error e → e.isExcess = false) : l.read limits' = l.read limits := by
  cases l with
  | space | numeral | operator | lparen | rparen | unknown => rfl
  | word x =>
    rw [read] at h
    split at h
    · cases h _ rfl
    · next hx => rw [read, read, if_neg hx, if_neg (by omega)]

/-- Larger limits leave a scan as it is that did not exceed the smaller ones. -/
theorem Scan.ofLexemes_mono {limits limits' : Limits} (hname : limits.identifierLength ≤ limits'.identifierLength)
    (htokens : limits.tokens ≤ limits'.tokens) {count : Nat} {ls : List Lexeme}
    (h : ∀ e, (ofLexemes limits count ls).result = .error e → e.isExcess = false) :
    ofLexemes limits' count ls = ofLexemes limits count ls := by
  induction ls generalizing count with
  | nil => rfl
  | cons l rest ih =>
    rw [ofLexemes] at h
    have hread : l.read limits' = l.read limits := by
      refine Lexeme.read_mono hname fun e he => ?_
      rw [he] at h
      exact h e rfl
    rw [ofLexemes, ofLexemes, hread]
    rcases hl : l.read limits with _ | c | t | e
    · rw [hl] at h
      exact ih h
    · rw [hl] at h
      exact congrArg (fun scan : Scan => { scan with skipped := c :: scan.skipped }) (ih h)
    · rw [hl] at h
      dsimp only at h ⊢
      by_cases hcount : limits.tokens ≤ count
      · rw [if_pos hcount] at h
        cases h _ rfl
      · rw [if_neg hcount] at h
        rw [if_neg hcount, if_neg (by omega), ih]
        intro e he
        rw [he] at h
        exact h e rfl
    · rfl

/-- The two stages of an analysis that succeeds. -/
theorem Text.analyse_eq_ok {options : Options} {s : Text} {polish : List Token}
    (h : (s.analyse options).result = .ok polish) :
    ∃ tokens, (s.scan options.limits).result = .ok tokens ∧
      Token.polish options.strictParens tokens = .ok polish := by
  rw [analyse] at h
  dsimp only at h
  split at h
  · cases h
  · next tokens hs =>
    split at h
    · cases h
    · next hp =>
      cases h
      exact ⟨tokens, hs, hp⟩

theorem Text.analyse_of_scan {options : Options} {s : Text} {tokens polish : List Token}
    (hscan : s.scan options.limits = { skipped := [], result := .ok tokens })
    (hpolish : Token.polish options.strictParens tokens = .ok polish) :
    (s.analyse options).skipped = [] ∧ (s.analyse options).result = .ok polish := by
  rw [analyse, hscan]
  dsimp only
  rw [hpolish]
  exact ⟨rfl, rfl⟩

end ArithMips
